import Neocache.Lock.Machine
import Neocache.Spec.LockProtocol

/-!
# lock の実装は約束に従う

語を `decode` で「読み手の数と二つの印」に、`Pc` を `role` で立場に写すと、`Pc.access` の一歩は
`LockProtocol.Access` の一歩になる（`access_protocol`）。系どうしの模倣は `sim` が与える。
-/

namespace Neocache.RawRwLock

open Infra.Parking Infra.Packed LockProtocol

variable {w : Word} {v u : BitVec w.bits}

/-! ## 語の読み方 -/

def limit (w : Word) : Limit where
  max := maxCount w.bits
  odd := maxCount_odd three_le_bits
  one_lt := one_lt_maxCount (le_trans (by decide) w.sixteen_le)

def decode (v : BitVec w.bits) : LockWord := ⟨count v, bit 1 v, bit 0 v⟩

theorem decode_inj (h : decode v = decode u) : v = u := by
  obtain ⟨hc, h1, h0⟩ := LockWord.mk.inj h
  exact ext hc h1 h0

theorem decode_zero : decode (0 : BitVec w.bits) = ⟨0, false, false⟩ := by
  obtain ⟨hc, h1, h0⟩ := unpack (v := (0 : BitVec w.bits)) (c := 0) (a := false) (b := false) rfl
  rw [decode, hc, h1, h0]

theorem decode_or_writersParked (v : BitVec w.bits) :
    decode (v ||| writersParked w) = { decode v with writersParked := true } := by
  obtain ⟨h1, h0⟩ := bit_or_two two_le_bits v
  simp only [decode, writersParked, count_or_two, h1, h0]

theorem decode_or_readersParked (v : BitVec w.bits) :
    decode (v ||| readersParked w) = { decode v with readersParked := true } := by
  obtain ⟨h1, h0⟩ := bit_or_one two_le_bits v
  simp only [decode, readersParked, count_or_one, h1, h0]

theorem decode_or_oneWriter (v : BitVec w.bits) :
    decode (v ||| oneWriter w) = { decode v with readers := (limit w).max } := by
  obtain ⟨hc, h1, h0⟩ := or_countMask two_le_bits v
  rw [decode, show oneWriter w = countMask w.bits from rfl, hc, h1, h0]
  rfl

theorem decode_oneWriter : decode (oneWriter w) = ⟨(limit w).max, false, false⟩ := by
  have h := decode_or_oneWriter (0 : BitVec w.bits)
  rwa [show (0 : BitVec w.bits) ||| oneWriter w = oneWriter w from BitVec.zero_or, decode_zero] at h

theorem decode_writersParked : decode (writersParked w) = ⟨0, true, false⟩ := by
  have h := decode_or_writersParked (0 : BitVec w.bits)
  rwa [show (0 : BitVec w.bits) ||| writersParked w = writersParked w from BitVec.zero_or,
    decode_zero] at h

theorem decode_readersParked : decode (readersParked w) = ⟨0, false, true⟩ := by
  have h := decode_or_readersParked (0 : BitVec w.bits)
  rwa [show (0 : BitVec w.bits) ||| readersParked w = readersParked w from BitVec.zero_or,
    decode_zero] at h

theorem decode_readersParked_or_writersParked :
    decode (readersParked w ||| writersParked w) = ⟨0, true, true⟩ := by
  rw [decode_or_writersParked, decode_readersParked]

theorem decode_both : decode (oneWriter w ||| readersParked w ||| writersParked w)
    = ⟨(limit w).max, true, true⟩ := by
  rw [decode_or_writersParked, decode_or_readersParked, decode_oneWriter]

theorem decode_oneReader_or_writersParked :
    decode (oneReader w ||| writersParked w) = ⟨1, true, false⟩ := by
  have hadd : checkedAdd w 0 (oneReader w) = some (oneReader w) := by
    unfold checkedAdd
    rw [if_pos (by simpa using (oneReader w).isLt)]
    simp
  obtain ⟨-, hc, h1, h0⟩ := checkedAdd_eq_some hadd
  obtain ⟨hc0, h10, h00⟩ := LockWord.mk.inj (decode_zero (w := w))
  rw [decode_or_writersParked, decode, hc, h0, hc0, h00]

/-- 印の桁だけを残した値。 -/
theorem decode_and_parked (v : BitVec w.bits) :
    decode (v &&& (readersParked w ||| writersParked w)) = { decode v with readers := 0 } := by
  obtain ⟨hc, h1, h0⟩ := and_low two_le_bits v
  rw [decode, show readersParked w ||| writersParked w = 1#w.bits ||| 2#w.bits from rfl, hc, h1, h0]
  rfl

/-- `fetch_sub(ONE_READER)`。 -/
theorem decode_sub_oneReader (v : BitVec w.bits) :
    decode (v - oneReader w)
      = { decode v with readers :=
            if (decode v).readers = 0 then (limit w).max else (decode v).readers - 1 } := by
  obtain ⟨hc, h1, h0⟩ := sub_four three_le_bits v
  rw [decode, show oneReader w = 4#w.bits from rfl, hc, h1, h0]
  rfl

/-- `fetch_and(ONE_READER | WRITERS_PARKED)`。 -/
theorem decode_and_downgrade (v : BitVec w.bits) :
    decode (v &&& (oneReader w ||| writersParked w))
      = ⟨(decode v).readers % 2, (decode v).writersParked, false⟩ := by
  obtain ⟨hc, h1, h0⟩ := and_four_or_two three_le_bits v
  rw [decode, show oneReader w ||| writersParked w = 4#w.bits ||| 2#w.bits from rfl, hc, h1, h0]
  rfl

theorem Increment.decode (inc : Increment w) :
    (RawRwLock.decode inc.state).readers + 1 < (limit w).max ∧
      RawRwLock.decode inc.newState
        = { RawRwLock.decode inc.state with readers := (RawRwLock.decode inc.state).readers + 1 } := by
  obtain ⟨hlt, hc, h1, h0⟩ := checkedAdd_eq_some inc.add
  have hne : count inc.newState ≠ maxCount w.bits := fun h =>
    inc.room (and_oneWriter_eq_self.mpr h)
  refine ⟨?_, ?_⟩
  · show count inc.state + 1 < maxCount w.bits
    omega
  · rw [RawRwLock.decode, hc, h1, h0]
    rfl

/-! ## 立場 -/

def AcquireWith.role : AcquireWith → Role
  | .zero => .outside
  | .writersParked => .writing

/-- 読み手の印だけなら読み手を、書き手の印だけなら書き手を起こす。 -/
def unparkRole (parked : BitVec w.bits) : Role :=
  if parked = readersParked w then .wakingReaders
  else if parked = writersParked w then .wakingWriter
  else .outside

def Pc.role : Pc w → Role
  | .idle | .tryLockExclusive | .lockExclusive _ => .outside
  | .lockExclusiveSlow a | .lockExclusiveCas a _ _ | .lockExclusiveFlag a _ _ => a.role
  | .lockExclusivePark => .writing
  | .lockExclusiveParked => .writerParked
  | .unlockExclusive | .unlockExclusiveSlow | .unlockExclusiveCas _ _ _ => .releasing
  | .unlockExclusiveStore => .storing
  | .unlockExclusiveUnpark parked => unparkRole parked
  | .tryLockSharedFast _ | .tryLockSharedFastCas _ _ => .outside
  | .tryLockSharedSlow | .tryLockSharedSlowCas _ => .outside
  | .lockSharedSlow | .lockSharedCas _ | .lockSharedFlag _ _ | .lockSharedPark => .reading
  | .lockSharedParked => .readerParked
  | .unlockShared => .releasingShared
  | .unlockSharedSlow => .checking
  | .unlockSharedUnpark => .wakingWriter
  | .downgrade => .releasing
  | .downgradeUnpark => .wakingReaders

/-- 写した一歩が約束に従う。 -/
def Obeys (r : Role) (v : BitVec w.bits) (o : StepResult (Pc w) (BitVec w.bits)) : Prop :=
  Access (limit w) r (decode v) (o.map Pc.role decode)

theorem lockExclusiveNext_obeys (a : AcquireWith) (v : BitVec w.bits) (spin : Bool) :
    Obeys a.role v ⟨lockExclusiveNext a v spin, v, .quiet⟩ := by
  have hnext : (lockExclusiveNext a v spin).role = a.role ∨
      (lockExclusiveNext a v spin).role = .writing := by
    unfold lockExclusiveNext
    split
    · exact Or.inl rfl
    · split
      · split <;> exact Or.inl rfl
      · exact Or.inr rfl
  show Access _ _ _ ⟨(lockExclusiveNext a v spin).role, decode v, .quiet⟩
  cases a with
  | zero =>
    rcases hnext with h | h <;> rw [h]
    · exact .stay trivial trivial
    · exact .announce
  | writersParked =>
    rcases hnext with h | h <;> rw [h] <;> exact .stay trivial trivial

theorem FastCall.next_obeys (call : FastCall) (v : BitVec w.bits) :
    Obeys .outside v ⟨call.next, v, .quiet⟩ := by
  cases call with
  | tryLock => exact .stay trivial trivial
  | first => exact .stay trivial trivial
  | second => exact .commit

theorem tryLockSharedNext_obeys (v : BitVec w.bits) : Obeys .outside v (tryLockSharedNext v) := by
  unfold tryLockSharedNext
  split <;> exact .stay trivial trivial

theorem increment_state {inc : Increment w} (h : increment v = some inc) : inc.state = v := by
  unfold increment at h
  split at h
  · cases h
  · split at h
    · rw [← Option.some.inj h]
    · cases h

theorem increment_eq_none {u : BitVec w.bits} (hadd : checkedAdd w v (oneReader w) = some u)
    (h : increment v = none) : count v + 1 = maxCount w.bits := by
  obtain ⟨-, hc, -, -⟩ := checkedAdd_eq_some hadd
  unfold increment at h
  split at h
  · next hnone => rw [hadd] at hnone; cases hnone
  · next newState hsome =>
    rw [hadd] at hsome
    obtain rfl := Option.some.inj hsome
    split at h
    · cases h
    · next hfull => rw [← hc, ← and_oneWriter_eq_self, ← not_not (a := _ = _)]; exact hfull

theorem lockSharedNext_obeys (v : BitVec w.bits) (spin : Bool) :
    Obeys .reading v (lockSharedNext v spin) := by
  unfold lockSharedNext
  split
  · next newState hadd =>
    split
    · exact .stay trivial trivial
    · next hnone => exact .overflow (increment_eq_none hadd hnone)
  · split
    · split <;> exact .stay trivial trivial
    · exact .stay trivial trivial

theorem takeShared_obeys {r : Role} (inc : Increment w) (hr : r = .outside ∨ r = .reading) :
    Obeys r inc.state ⟨.idle, inc.newState, .takeShared⟩ := by
  obtain ⟨hroom, hnew⟩ := inc.decode
  show Access _ _ _ ⟨.outside, RawRwLock.decode inc.newState, .takeShared⟩
  rw [hnew]
  exact .takeShared hr hroom

theorem takeExclusive_obeys : Obeys (w := w) .outside 0 ⟨.idle, oneWriter w, .takeExclusive⟩ := by
  show Access _ _ _ ⟨.outside, decode (oneWriter w), .takeExclusive⟩
  rw [decode_oneWriter, decode_zero]
  exact .takeExclusive rfl

theorem lockExclusiveCas_obeys (a : AcquireWith) (free : v &&& oneWriter w = 0) :
    Obeys a.role v ⟨.idle, v ||| oneWriter w ||| a.word w, .takeExclusive⟩ := by
  have hfree : (decode v).readers = 0 := and_oneWriter_eq_zero.mp free
  show Access _ _ _ ⟨.outside, decode (v ||| oneWriter w ||| a.word w), .takeExclusive⟩
  -- 一度眠った書き手は、他にも眠っている書き手が居るものとして印ごと取る
  cases a with
  | zero =>
    rw [show v ||| oneWriter w ||| AcquireWith.zero.word w = v ||| oneWriter w from BitVec.or_zero,
      decode_or_oneWriter]
    exact .takeExclusive hfree
  | writersParked =>
    rw [show AcquireWith.writersParked.word w = writersParked w from rfl, decode_or_writersParked,
      decode_or_oneWriter]
    exact .retakeExclusive hfree

theorem lockExclusiveFlag_obeys (a : AcquireWith) (held : ¬ v &&& oneWriter w = 0) :
    Obeys a.role v ⟨.lockExclusivePark, v ||| writersParked w, .quiet⟩ := by
  show Access _ _ _ ⟨.writing, decode (v ||| writersParked w), .quiet⟩
  rw [decode_or_writersParked]
  refine .flagWriters ?_ (fun h => held (and_oneWriter_eq_zero.mpr h))
  cases a with
  | zero => exact Or.inl rfl
  | writersParked => exact Or.inr rfl

/-- 片方の印だけを見て手放す。見た印の側を起こしに行く。 -/
theorem unlockExclusiveCas_obeys (held : v &&& oneWriter w = oneWriter w)
    (one : ¬ v &&& (readersParked w ||| writersParked w) = readersParked w ||| writersParked w) :
    Obeys .releasing v
      ⟨.unlockExclusiveUnpark (v &&& (readersParked w ||| writersParked w)), 0, .dropExclusive⟩ := by
  have hmax : (decode v).readers = (limit w).max := and_oneWriter_eq_self.mp held
  have hparked := decode_and_parked v
  generalize v &&& (readersParked w ||| writersParked w) = parked at hparked one
  show Access _ _ (decode v) ⟨unparkRole parked, decode 0, .dropExclusive⟩
  rw [decode_zero]
  generalize decode v = d at hmax hparked
  obtain ⟨c, a, b⟩ := d
  obtain rfl : c = (limit w).max := hmax
  -- 二つの印で分ける。両方が立つ場合だけは分岐で除かれている
  cases a with
  | false =>
    cases b with
    | false =>
      have h1 : ¬ parked = readersParked w := fun h => by
        rw [h, decode_readersParked] at hparked
        cases hparked
      have h2 : ¬ parked = writersParked w := fun h => by
        rw [h, decode_writersParked] at hparked
        cases hparked
      rw [unparkRole, if_neg h1, if_neg h2]
      exact .release
    | true =>
      rw [unparkRole, if_pos (decode_inj (hparked.trans decode_readersParked.symm))]
      exact .releaseReaders
  | true =>
    cases b with
    | false =>
      have h1 : ¬ parked = readersParked w := fun h => by
        rw [h, decode_readersParked] at hparked
        cases hparked
      rw [unparkRole, if_neg h1, if_pos (decode_inj (hparked.trans decode_writersParked.symm))]
      exact .releaseWriter
    | true =>
      exact (one (decode_inj (hparked.trans decode_readersParked_or_writersParked.symm))).elim

/-- 両方の印を見た書き手は、語を書き替える手前に居る。 -/
theorem unlockExclusiveStore_obeys (hv : decode v = ⟨(limit w).max, true, true⟩) :
    Obeys .releasing v ⟨.unlockExclusiveStore, v, .quiet⟩ := by
  show Access _ _ _ ⟨.storing, decode v, .quiet⟩
  rw [hv]
  exact .seeBoth

theorem decode_eq_both (held : v &&& oneWriter w = oneWriter w)
    (both : v &&& (readersParked w ||| writersParked w) = readersParked w ||| writersParked w) :
    decode v = ⟨(limit w).max, true, true⟩ := by
  have hmax : (decode v).readers = (limit w).max := and_oneWriter_eq_self.mp held
  have hparked := decode_and_parked v
  rw [both, decode_readersParked_or_writersParked] at hparked
  obtain ⟨-, h1, h0⟩ := LockWord.mk.inj hparked
  rw [show decode v = ⟨(decode v).readers, (decode v).writersParked, (decode v).readersParked⟩
    from rfl, hmax, ← h1, ← h0]

theorem unlockShared_obeys (v : BitVec w.bits) :
    Obeys .releasingShared v
      ⟨if v = oneReader w ||| writersParked w then .unlockSharedSlow else .idle, v - oneReader w,
        .dropShared⟩ := by
  have hnext : (if v = oneReader w ||| writersParked w then (.unlockSharedSlow : Pc w)
      else .idle).role = if decode v = ⟨1, true, false⟩ then .checking else .outside := by
    by_cases h : v = oneReader w ||| writersParked w
    · rw [if_pos h, if_pos (by rw [h, decode_oneReader_or_writersParked])]
      rfl
    · have hne : ¬ decode v = ⟨1, true, false⟩ := fun hd =>
        h (decode_inj (hd.trans decode_oneReader_or_writersParked.symm))
      rw [if_neg h, if_neg hne]
      rfl
  show Access _ _ _ ⟨Pc.role (if v = oneReader w ||| writersParked w then _ else _),
    decode (v - oneReader w), .dropShared⟩
  rw [hnext, decode_sub_oneReader]
  exact .dropShared

theorem downgrade_obeys (v : BitVec w.bits) :
    Obeys .releasing v
      ⟨if v &&& readersParked w ≠ 0 then .downgradeUnpark else .idle,
        v &&& (oneReader w ||| writersParked w), .downgrade⟩ := by
  have hnext : (if v &&& readersParked w ≠ 0 then (.downgradeUnpark : Pc w) else .idle).role
      = if (decode v).readersParked then .wakingReaders else .outside := by
    show _ = if bit 0 v then _ else _
    cases hb : bit 0 v with
    | false => rw [if_neg (not_not.mpr (and_readersParked_eq_zero.mpr hb))]; rfl
    | true =>
      rw [if_pos fun h => by rw [and_readersParked_eq_zero.mp h] at hb; cases hb]
      rfl
  show Access _ _ _ ⟨Pc.role (if v &&& readersParked w ≠ 0 then _ else _),
    decode (v &&& (oneReader w ||| writersParked w)), .downgrade⟩
  rw [hnext, decode_and_downgrade]
  exact .downgrade

/-! ## 模倣 -/

/-- 一歩は約束に従う。 -/
theorem access_obeys {p : Pc w} {c : Chance} {o : StepResult (Pc w) (BitVec w.bits)}
    (h : p.access c v = some o) : Obeys p.role v o := by
  cases p with
  | idle => cases h
  | lockExclusiveParked => cases h
  | lockSharedParked => cases h
  | tryLockExclusive =>
    simp only [Pc.access] at h
    split at h <;> obtain rfl := Option.some.inj h
    · next hv => subst hv; exact takeExclusive_obeys
    · exact .stay trivial trivial
  | lockExclusive retry =>
    simp only [Pc.access] at h
    split at h <;> obtain rfl := Option.some.inj h
    · next hv => obtain ⟨rfl, -⟩ := hv; exact takeExclusive_obeys
    · cases retry <;> exact .stay trivial trivial
  | lockExclusiveSlow a =>
    obtain rfl := Option.some.inj h
    exact lockExclusiveNext_obeys a v c.spin
  | lockExclusiveCas a state free =>
    simp only [Pc.access] at h
    split at h <;> obtain rfl := Option.some.inj h
    · next hv => obtain ⟨rfl, -⟩ := hv; exact lockExclusiveCas_obeys a free
    · exact lockExclusiveNext_obeys a v c.spin
  | lockExclusiveFlag a state held =>
    simp only [Pc.access] at h
    split at h <;> obtain rfl := Option.some.inj h
    · next hv => obtain ⟨rfl, -⟩ := hv; exact lockExclusiveFlag_obeys a held
    · exact lockExclusiveNext_obeys a v c.spin
  | lockExclusivePark =>
    simp only [Pc.access] at h
    split at h <;> obtain rfl := Option.some.inj h
    · next hv =>
      refine .parkWriter (fun hz => hv.1 (and_oneWriter_eq_zero.mpr hz)) ?_
      exact Bool.of_not_eq_false fun hz => hv.2 (and_writersParked_eq_zero.mpr hz)
    · exact .stay trivial trivial
  | unlockExclusive =>
    simp only [Pc.access] at h
    split at h <;> obtain rfl := Option.some.inj h
    · next hv =>
      subst hv
      show Access _ _ _ ⟨.outside, decode 0, .dropExclusive⟩
      rw [decode_zero, decode_oneWriter]
      exact .release
    · exact .stay trivial trivial
  | unlockExclusiveSlow =>
    simp only [Pc.access] at h
    split at h
    · next held =>
      split at h
      · obtain rfl := Option.some.inj h
        exact .giveUp
      · split at h <;> obtain rfl := Option.some.inj h
        · exact .stay trivial trivial
        · next both => exact unlockExclusiveStore_obeys (decode_eq_both held (not_not.mp both))
    · obtain rfl := Option.some.inj h
      exact .giveUp
  | unlockExclusiveCas state held one =>
    simp only [Pc.access] at h
    split at h
    · next hv =>
      obtain rfl := Option.some.inj h
      subst hv
      exact unlockExclusiveCas_obeys held one
    · split at h <;> obtain rfl := Option.some.inj h
      · next hv => exact unlockExclusiveStore_obeys (by rw [hv, decode_both])
      · exact .giveUp
  | unlockExclusiveStore =>
    obtain rfl := Option.some.inj h
    show Access _ _ _ ⟨unparkRole (readersParked w), decode (writersParked w), .dropExclusive⟩
    rw [unparkRole, if_pos rfl, decode_writersParked]
    exact .store
  | unlockExclusiveUnpark parked =>
    simp only [Pc.access] at h
    show Obeys (unparkRole parked) v o
    unfold unparkRole
    split at h
    · next hp =>
      obtain rfl := Option.some.inj h
      rw [if_pos hp]
      exact .unparkReaders
    · next hp =>
      split at h <;> obtain rfl := Option.some.inj h
      · next hp' =>
        rw [if_neg hp, if_pos hp']
        exact .unparkWriter
      · next hp' =>
        rw [if_neg hp, if_neg hp']
        exact .stay trivial trivial
  | tryLockSharedFast call =>
    simp only [Pc.access] at h
    split at h <;> obtain rfl := Option.some.inj h
    · exact .stay trivial trivial
    · exact call.next_obeys v
  | tryLockSharedFastCas call inc =>
    simp only [Pc.access] at h
    split at h <;> obtain rfl := Option.some.inj h
    · next hv => obtain ⟨rfl, -⟩ := hv; exact takeShared_obeys inc (Or.inl rfl)
    · exact call.next_obeys v
  | tryLockSharedSlow =>
    obtain rfl := Option.some.inj h
    exact tryLockSharedNext_obeys v
  | tryLockSharedSlowCas inc =>
    simp only [Pc.access] at h
    split at h <;> obtain rfl := Option.some.inj h
    · next hv => obtain ⟨rfl, -⟩ := hv; exact takeShared_obeys inc (Or.inl rfl)
    · exact tryLockSharedNext_obeys v
  | lockSharedSlow =>
    obtain rfl := Option.some.inj h
    exact lockSharedNext_obeys v c.spin
  | lockSharedCas inc =>
    simp only [Pc.access] at h
    split at h <;> obtain rfl := Option.some.inj h
    · next hv => obtain ⟨rfl, -⟩ := hv; exact takeShared_obeys inc (Or.inr rfl)
    · exact .stay trivial trivial
  | lockSharedFlag state full =>
    simp only [Pc.access] at h
    split at h <;> obtain rfl := Option.some.inj h
    · next hv =>
      obtain ⟨rfl, -⟩ := hv
      show Access _ _ _ ⟨.reading, decode (v ||| readersParked w), .quiet⟩
      rw [decode_or_readersParked]
      exact .flagReaders (checkedAdd_eq_none full)
    · exact lockSharedNext_obeys v c.spin
  | lockSharedPark =>
    simp only [Pc.access] at h
    split at h <;> obtain rfl := Option.some.inj h
    · next hv =>
      refine .parkReader (and_oneWriter_eq_self.mp hv.1) ?_
      exact Bool.of_not_eq_false fun hz => hv.2 (and_readersParked_eq_zero.mpr hz)
    · exact .stay trivial trivial
  | unlockShared =>
    obtain rfl := Option.some.inj h
    exact unlockShared_obeys v
  | unlockSharedSlow =>
    simp only [Pc.access] at h
    split at h <;> obtain rfl := Option.some.inj h
    · next hv =>
      subst hv
      show Access _ _ _ ⟨.wakingWriter, decode 0, .quiet⟩
      rw [decode_zero, decode_writersParked]
      exact .unflag
    · next hv =>
      exact .overtaken fun hd => hv (decode_inj (hd.trans decode_writersParked.symm))
  | unlockSharedUnpark =>
    obtain rfl := Option.some.inj h
    exact .unparkWriter
  | downgrade =>
    obtain rfl := Option.some.inj h
    exact downgrade_obeys v
  | downgradeUnpark =>
    obtain rfl := Option.some.inj h
    exact .unparkReaders

theorem enter_obeys (op : LockOp) : Enter (Pc.role (.idle : Pc w)) op.need (op.entry w).role := by
  cases op with
  | unlockShared => exact .unlockShared
  | unlockExclusive => exact .unlockExclusive
  | downgrade => exact .unlockExclusive
  | _ => exact .acquire

/-- lock の系は、約束の系を模倣する。 -/
theorem sim (w : Word) : Sim (program w) (LockProtocol.program (limit w)) Pc.role decode where
  start := decode_zero
  idle := rfl
  writerWoken := rfl
  readerWoken := rfl
  enter h := by
    obtain ⟨op, rfl, rfl, rfl⟩ := h
    exact enter_obeys op
  access h := by
    obtain ⟨c, hc⟩ := h
    exact access_obeys hc

end Neocache.RawRwLock
