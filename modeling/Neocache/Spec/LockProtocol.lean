import Neocache.Infra.Parking

/-!
# 読み書き lock の約束

lock の語を「読み手の数と二つの印」、thread の居場所を「lock に対する立場」まで抽象し、
一歩に許されることを並べたもの。CAS の失敗や読み直しの細部は持たない。

書き手が lock を持つことは、読み手の数が上限 `max` であることで表す。読み手は `max` 人に
達する手前で断られるので、二つの読み方は混ざらない。

印を消した thread は必ず起こす側に回る。起こされた書き手（`writing`）は、取るときに書き手の印を
立て直すか、また眠るかのどちらかである。読み手の印が立っていれば、それを立てた読み手
（`reading`）がまだどこかに居る。
-/

namespace Neocache.LockProtocol

open Infra.Parking

/-- 読み手の数の上限。桁をすべて立てた値なので奇数である。 -/
structure Limit where
  max : Nat
  odd : max % 2 = 1
  one_lt : 1 < max

/-- 読み手の数と、書き手・読み手が眠っているという印。 -/
structure LockWord where
  readers : Nat
  writersParked : Bool
  readersParked : Bool
  deriving DecidableEq, Repr

/-- thread の立場。 -/
inductive Role
  /-- 操作の外に居るか、まだ何も約束していない。 -/
  | outside
  /-- 書き手の印を立てたか、起こされたかで、取るか眠るかする書き手。 -/
  | writing
  /-- 取るか眠るかする読み手。 -/
  | reading
  | writerParked
  | readerParked
  | releasingShared
  | releasing
  /-- 二つの印が立っているのを見て、語を書き替える手前の書き手。 -/
  | storing
  /-- 最後の読み手として、書き手の印を消す手前。 -/
  | checking
  | wakingReaders
  | wakingWriter
  deriving DecidableEq, Repr

/-- 語を変えずに留まれる立場。 -/
def Role.Steady : Role → Prop
  | .outside | .writing | .reading | .releasing => True
  | _ => False

/-- 操作の始まり。解放と降格は、持っている thread だけが始める。 -/
inductive Enter : Role → Need → Role → Prop
  | acquire : Enter .outside .nothing .outside
  | unlockShared : Enter .outside .shared .releasingShared
  | unlockExclusive : Enter .outside .exclusive .releasing

/-- 一歩に許されること。 -/
inductive Access (L : Limit) : Role → LockWord → StepResult Role LockWord → Prop
  | stay {r v e} (hr : r.Steady) (he : e.Silent) : Access L r v ⟨r, v, e⟩
  | announce {v} : Access L .outside v ⟨.writing, v, .quiet⟩
  | commit {v} : Access L .outside v ⟨.reading, v, .quiet⟩
  | overflow {v} (h : v.readers + 1 = L.max) : Access L .reading v ⟨.outside, v, .panic⟩
  | takeExclusive {v} (free : v.readers = 0) :
    Access L .outside v ⟨.outside, { v with readers := L.max }, .takeExclusive⟩
  | retakeExclusive {v} (free : v.readers = 0) :
    Access L .writing v
      ⟨.outside, { v with readers := L.max, writersParked := true }, .takeExclusive⟩
  | takeShared {r v} (hr : r = .outside ∨ r = .reading) (room : v.readers + 1 < L.max) :
    Access L r v ⟨.outside, { v with readers := v.readers + 1 }, .takeShared⟩
  | flagWriters {r v} (hr : r = .outside ∨ r = .writing) (held : v.readers ≠ 0) :
    Access L r v ⟨.writing, { v with writersParked := true }, .quiet⟩
  | flagReaders {v} (held : v.readers = L.max) :
    Access L .reading v ⟨.reading, { v with readersParked := true }, .quiet⟩
  | parkWriter {v} (held : v.readers ≠ 0) (flag : v.writersParked = true) :
    Access L .writing v ⟨.writerParked, v, .parkWriter⟩
  | parkReader {v} (held : v.readers = L.max) (flag : v.readersParked = true) :
    Access L .reading v ⟨.readerParked, v, .parkReader⟩
  | release : Access L .releasing ⟨L.max, false, false⟩ ⟨.outside, ⟨0, false, false⟩, .dropExclusive⟩
  | releaseReaders :
    Access L .releasing ⟨L.max, false, true⟩ ⟨.wakingReaders, ⟨0, false, false⟩, .dropExclusive⟩
  | releaseWriter :
    Access L .releasing ⟨L.max, true, false⟩ ⟨.wakingWriter, ⟨0, false, false⟩, .dropExclusive⟩
  | seeBoth : Access L .releasing ⟨L.max, true, true⟩ ⟨.storing, ⟨L.max, true, true⟩, .quiet⟩
  | giveUp {v} : Access L .releasing v ⟨.outside, v, .panic⟩
  | store {v} : Access L .storing v ⟨.wakingReaders, ⟨0, true, false⟩, .dropExclusive⟩
  -- 数の桁は最下位だけが残る。
  | downgrade {v} :
    Access L .releasing v
      ⟨if v.readersParked then .wakingReaders else .outside,
        ⟨v.readers % 2, v.writersParked, false⟩, .downgrade⟩
  -- 0 から引くと上限に回り込むが、持っている thread だけが引くので起きない。
  | dropShared {v} :
    Access L .releasingShared v
      ⟨if v = ⟨1, true, false⟩ then .checking else .outside,
        { v with readers := if v.readers = 0 then L.max else v.readers - 1 }, .dropShared⟩
  | unflag : Access L .checking ⟨0, true, false⟩ ⟨.wakingWriter, ⟨0, false, false⟩, .quiet⟩
  | overtaken {v} (h : v ≠ ⟨0, true, false⟩) : Access L .checking v ⟨.outside, v, .quiet⟩
  | unparkReaders {v} : Access L .wakingReaders v ⟨.outside, v, .unparkAll⟩
  | unparkWriter {v} : Access L .wakingWriter v ⟨.outside, v, .unparkOne⟩

def program (L : Limit) : Program Role LockWord where
  start := ⟨0, false, false⟩
  idle := .outside
  writerParked := .writerParked
  readerParked := .readerParked
  writerWoken := .writing
  readerWoken := .reading
  enter := Enter
  access := Access L

variable {L : Limit}

variable {r : Role} {v : LockWord} {o : StepResult Role LockWord}

theorem Access.not_parked (h : Access L r v o) : r ≠ .writerParked ∧ r ≠ .readerParked := by
  cases h with
  | stay hr => cases r <;> first | exact hr.elim | simp
  | takeShared hr => rcases hr with rfl | rfl <;> simp
  | flagWriters hr => rcases hr with rfl | rfl <;> simp
  | _ => simp

/-- 眠るのは、待ち行列に並ぶ一歩だけである。 -/
theorem Access.parks (h : Access L r v o) :
    (o.effect = .parkWriter ↔ o.next = .writerParked) ∧
      (o.effect = .parkReader ↔ o.next = .readerParked) := by
  cases h with
  | @stay _ _ e hr he =>
    have hrole : r ≠ .writerParked ∧ r ≠ .readerParked := by
      cases r <;> first | exact hr.elim | simp
    have heff : e ≠ .parkWriter ∧ e ≠ .parkReader := by
      cases e <;> first | exact he.elim | simp
    simp [hrole, heff]
  | downgrade => split <;> simp
  | dropShared => split <;> simp
  | _ => simp

theorem lawful : (program L).Lawful where
  enter_ne h := by cases h <;> simp [program]
  access_ne h := Access.not_parked h
  writer h := (Access.parks h).1
  reader h := (Access.parks h).2
  parked_ne := by simp [program]
  idle_ne := by simp [program]
  writerWoken_ne := by simp [program]
  readerWoken_ne := by simp [program]

end Neocache.LockProtocol
