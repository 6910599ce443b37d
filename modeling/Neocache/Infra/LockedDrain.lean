import Mathlib.Algebra.BigOperators.Group.Finset.Basic
import Mathlib.Algebra.GroupWithZero.Nat
import Neocache.Infra.LockedSections

/-!
# 始まった操作を終える

lock の実装の上の区間（`Infra.Locked`）は、新しい操作を始めなければ、始まった操作をすべて終えられる。
前提は、何かを持ったまま lock を取りに行く thread が居ないこと（`OneGuard`）である。

続けて動かす thread を次の順に選ぶ。

1. 一人で動けば呼び出しを終えられる thread（`ready`）が居れば、終わるまで動かす
2. 居なければ、動いている区間の持ち主は呼び出しの外に居るので、区間を進めて lock を放させる
3. 動いている区間も無ければ、lock はどれも空いていて、眠っている thread も居ない（`Drains.stuck`）

残りの仕事は、取る呼び出しに 9、他の呼び出しに 1、共有の区間に 4、排他の区間に 6 を数える。取れた
access で 9 が 4 か 6 に変わり、放す呼び出しは始めに 1 増えてから 4 以上減り、降格は 6 を 4 にする。
-/

namespace Infra.Locked

open Parking Sections Relation

variable {I S O L R P W T : Type*}

/-! ## 残りの仕事 -/

namespace Phase

/-- lock を取る呼び出し。 -/
def Acquires (p : Phase) : Prop := p = .lockShared ∨ p = .lockExclusive

/-- まだ手放していない、手放す呼び出し。 -/
def Releases (p : Phase) : Prop := p = .unlockShared ∨ p = .unlockExclusive ∨ p = .downgrade

def weight : Phase → Nat
  | .idle => 0
  | .lockShared | .lockExclusive => 9
  | _ => 1

/-- 呼び出しを終えるまでに必ず減る量。 -/
def due : Phase → Nat
  | .idle => 0
  | .unlockShared | .unlockExclusive | .downgrade => 2
  | _ => 1

theorem due_pos {p : Phase} (h : p ≠ .idle) : 0 < p.due := by
  cases p <;> first | exact (h rfl).elim | simp [due]

theorem not_acquires_idle : ¬ Phase.idle.Acquires := by simp [Acquires]

/-- 手放す呼び出しは、取る呼び出しではない。 -/
theorem Releases.spec {p : Phase} (h : p.Releases) :
    p ≠ .idle ∧ ¬ p.Acquires ∧ p.weight = 1 ∧ p.due = 2 := by
  rcases h with rfl | rfl | rfl <;> simp [Acquires, weight, due]

end Phase

noncomputable def Status.work (M : Sections I S O L R) : Status L R → Nat
  | .finished _ => 0
  | .running l => open Classical in if M.shared l then 4 else 6

noncomputable def work (M : Sections I S O L R) (rs : List (Record T O L R)) : Nat :=
  (rs.map fun x => Status.work M x.status).sum

section Work

variable {M : Sections I S O L R} {l : L} {rs : List (Record T O L R)} {n : Nat} {t : T} {op : O}
  {st : Status L R}

theorem work_shared (h : M.shared l) : Status.work M (.running l : Status L R) = 4 := if_pos h

theorem work_exclusive (h : ¬ M.shared l) : Status.work M (.running l : Status L R) = 6 := if_neg h

theorem work_snoc (x : Record T O L R) :
    work M (rs ++ [x]) = work M rs + Status.work M x.status := by
  simp [work]

theorem work_setStatus (h : rs[n]? = some ⟨t, op, st⟩) (st' : Status L R) :
    work M (setStatus rs n st') + Status.work M st = work M rs + Status.work M st' := by
  obtain ⟨pre, post, hrs, hset⟩ := split_setStatus h
  rw [hset, hrs]
  simp only [work, List.map_append, List.map_cons, List.sum_append, List.sum_cons]
  omega

/-- 一回の access で残りの仕事は減り、減り方は呼び出しの種類で決まる。 -/
theorem work_follow {s : State I S T O L R P W} {i : I} {c : Call O L R} {p q : Phase} {e : Effect}
    (hc : s.call t = some (i, c)) (h : p.Step e q) (hagree : Agrees M s t i p)
    (hcalm : p.Releases → e ≠ .panic) :
    work M (World.follow M s.world t c e).records + q.weight + p.due
      ≤ work M s.world.records + p.weight + q.due := by
  have hcall : ∀ {c'}, s.call t = some (i, c') → c = c' := fun hc' =>
    congrArg Prod.snd (Option.some.inj (hc.symm.trans hc'))
  cases h with
  | quiet | parkReader | parkWriter =>
    rw [follow_still (by simp)]
  | refuse hp =>
    rw [follow_still (by simp)]
    rcases hp with rfl | rfl <;> simp only [Phase.weight, Phase.due] <;> omega
  | panic hp =>
    rw [follow_still (by simp)]
    cases p <;> simp only [Phase.weight, Phase.due] <;>
      first | omega | exact (hcalm (by simp [Phase.Releases]) rfl).elim
  | unpark he =>
    rw [follow_still (by rcases he with rfl | rfl <;> simp)]
    simp only [Phase.weight, Phase.due]
    omega
  | rest =>
    rw [follow_still (by simp)]
    simp only [Phase.weight, Phase.due]
    omega
  | takeShared =>
    cases hagree with
    | lockShared hc' _ hl =>
      obtain rfl := hcall hc'
      show work M (s.world.records ++ [_]) + _ + _ ≤ _
      rw [work_snoc, work_shared hl]
      simp only [Phase.weight, Phase.due]
      omega
  | takeExclusive =>
    cases hagree with
    | lockExclusive hc' _ hl =>
      obtain rfl := hcall hc'
      show work M (s.world.records ++ [_]) + _ + _ ≤ _
      rw [work_snoc, work_exclusive hl]
      simp only [Phase.weight, Phase.due]
      omega
  | dropShared hq =>
    cases hagree with
    | @unlockShared n op l r hc' hn _ hl _ =>
      obtain rfl := hcall hc'
      have hset := work_setStatus (M := M) hn (.finished r)
      rw [work_shared hl] at hset
      show work M (setStatus s.world.records n (.finished r)) + _ + _ ≤ _
      rcases hq with rfl | rfl <;> simp only [Phase.weight, Phase.due, Status.work] at hset ⊢ <;>
        omega
  | dropExclusive hq =>
    cases hagree with
    | @unlockExclusive n op l r hc' hn _ hl _ =>
      obtain rfl := hcall hc'
      have hset := work_setStatus (M := M) hn (.finished r)
      rw [work_exclusive hl] at hset
      show work M (setStatus s.world.records n (.finished r)) + _ + _ ≤ _
      rcases hq with rfl | rfl <;> simp only [Phase.weight, Phase.due, Status.work] at hset ⊢ <;>
        omega
  | downgrade hq =>
    cases hagree with
    | @downgrade n op l l' hc' hn _ hl hl' _ =>
      obtain rfl := hcall hc'
      have hset := work_setStatus (M := M) hn (.running l')
      rw [work_exclusive hl, work_shared hl'] at hset
      show work M (setStatus s.world.records n (.running l')) + _ + _ ≤ _
      rcases hq with rfl | rfl <;> simp only [Phase.weight, Phase.due] <;> omega

end Work

/-! ## 片付けの途中の状態 -/

/-- thread の呼び出しの種類。 -/
def State.phase (phase : P → Phase) (s : State I S T O L R P W) (t : T) : Phase :=
  match s.call t with
  | some (i, _) => phase ((s.locks i).pc t)
  | none => .idle

/-- 動いている区間を持つ thread は、lock を取りに行かない。 -/
def OneGuard (phase : P → Phase) (s : State I S T O L R P W) : Prop :=
  ∀ x ∈ s.world.records, (s.phase phase x.thread).Acquires → ∃ r, x.status = .finished r

/-- 呼び出しを終えられるための、program の性質。`ready` は、一人で動けば終えられる所である。 -/
structure Drains (T : Type*) [DecidableEq T] (N : Program P W) (phase : P → Phase)
    (ready : P → W → Prop) (rank : P → W → Nat) : Prop where
  idle : ∀ {p}, phase p = .idle → p = N.idle
  busy : ∀ {v}, ¬ ready N.idle v
  solo : ∀ {p v}, ready p v → ∃ o, N.access p v o ∧
    (o.next = N.idle ∨ ready o.next o.word ∧ rank o.next o.word < rank p v)
  release : ∀ {p v}, phase p ≠ .idle → ¬ (phase p).Acquires → ready p v
  calm : ∀ {s : Threads T P W} {t o}, N.lts.Reachable s → N.access (s.pc t) s.word o →
    (phase (s.pc t)).Releases → o.effect ≠ .panic
  stuck : ∀ {s : Threads T P W}, N.lts.Reachable s → s.exclusive = 0 → s.shared = 0 →
    (∀ t, ¬ ready (s.pc t) s.word) → s = N.init

/-- 動いている区間は、一人で進めれば、返すか共有に落とす所に着く。 -/
def Completes (T : Type*) [DecidableEq I] (M : Sections I S O L R) (d : I → S) : Prop :=
  ∀ w : World I S T O L R, (M.lts T d).Reachable w → ∀ (n : Nat) (t : T) (op : O) (l : L),
    w.records[n]? = some ⟨t, op, .running l⟩ →
    ∃ q : L × S, ReflTransGen (Inner M) (l, w.data (M.obj op)) q ∧
      ((∃ r, M.result q.1 = some r) ∨ ¬ M.shared q.1 ∧ ∃ l', M.shared l' ∧ M.step q.1 q.2 l' q.2)

section Phases

variable {phase : P → Phase} {s s' : State I S T O L R P W} {t u : T} {i : I}

theorem phase_of_call {c : Call O L R} (hc : s.call t = some (i, c)) :
    s.phase phase t = phase ((s.locks i).pc t) := by
  unfold State.phase
  rw [hc]

theorem phase_of_idle {N : Program P W} (hP : phase N.idle = .idle) (hidle : s.Idle N t) :
    s.phase phase t = .idle := by
  unfold State.phase
  cases s.call t with
  | none => rfl
  | some x =>
    show phase ((s.locks x.1).pc t) = .idle
    rw [hidle x.1, hP]

theorem phase_congr (hcall : s'.call u = s.call u)
    (hpc : ∀ i, phase ((s'.locks i).pc u) = phase ((s.locks i).pc u)) :
    s'.phase phase u = s.phase phase u := by
  unfold State.phase
  rw [hcall]
  cases s.call u with
  | none => rfl
  | some x => exact hpc x.1

/-- 呼び出しを始めても、他の thread の呼び出しの種類は変わらない。 -/
theorem phase_enter_other [DecidableEq I] [DecidableEq T] {p : P} {c : Call O L R} (hne : u ≠ t) :
    (s.enter t i p c).phase phase u = s.phase phase u := by
  refine phase_congr (Function.update_of_ne hne _ _) fun j => ?_
  rcases eq_or_ne j i with rfl | hj
  · rw [State.enter_locks_self, show ((s.locks j).goto t p).pc u = (s.locks j).pc u from
      Function.update_of_ne hne _ _]
  · rw [State.enter_locks_of_ne hj]

/-- 一人の thread の種類だけが変わったときの和。 -/
theorem sum_weight [DecidableEq T] {F : Finset T} (ht : t ∈ F)
    (h : ∀ u, u ≠ t → s'.phase phase u = s.phase phase u) :
    ∑ u ∈ F, (s'.phase phase u).weight + (s.phase phase t).weight
      = ∑ u ∈ F, (s.phase phase u).weight + (s'.phase phase t).weight := by
  have hothers : ∑ u ∈ F.erase t, (s'.phase phase u).weight
      = ∑ u ∈ F.erase t, (s.phase phase u).weight :=
    Finset.sum_congr rfl fun u hu => by rw [h u (Finset.ne_of_mem_erase hu)]
  have hbefore := Finset.add_sum_erase F (fun u => (s.phase phase u).weight) ht
  have hafter := Finset.add_sum_erase F (fun u => (s'.phase phase u).weight) ht
  omega

end Phases

/-- 始まった操作の、thread と操作の列。 -/
def State.started (s : State I S T O L R P W) : List (T × O) :=
  s.world.records.map fun x => (x.thread, x.op)

theorem started_setStatus (rs : List (Record T O L R)) (n : Nat) (st : Status L R) :
    (setStatus rs n st).map (fun x => (x.thread, x.op)) = rs.map fun x => (x.thread, x.op) := by
  refine List.ext_getElem? fun m => ?_
  rw [List.getElem?_map, List.getElem?_map, setStatus, List.getElem?_modify]
  cases rs[m]? with
  | none => rfl
  | some x => by_cases hn : n = m <;> simp [hn]

/-- 始まった操作は、終わるまで記録から消えず、順も変わらない。 -/
theorem Proceed.started [DecidableEq I] [DecidableEq T] {M : Sections I S O L R} {N : Program P W}
    {doors : Doors P} {s s' : State I S T O L R P W} {t : T} (h : Proceed M N doors s t s') :
    s.started <+: s'.started := by
  have hset : ∀ n st, s.started
      <+: (setStatus s.world.records n st).map fun x => (x.thread, x.op) := by
    intro n st
    rw [started_setStatus]
    exact List.prefix_rfl
  cases h with
  | unlockShared | unlockExclusive | downgrade => exact List.prefix_rfl
  | @access i c o hc ha =>
    show _ <+: (World.follow M s.world t c o.effect).records.map _
    unfold World.follow
    split
    · exact ⟨_, (List.map_append).symm⟩
    · exact ⟨_, (List.map_append).symm⟩
    · exact hset _ _
    · exact hset _ _
    · exact hset _ _
    · exact List.prefix_rfl
  | move => exact hset _ _

section Drain

variable [DecidableEq I] [DecidableEq T] {M : Sections I S O L R} {N : Program P W}
  {doors : Doors P} {phase : P → Phase} {d : I → S} {ready : P → W → Prop} {rank : P → W → Nat}
  {s s' : State I S T O L R P W} {t u : T} {i : I} {F : Finset T}

/-- `F` は動いたことのある thread を含む。 -/
structure Winding (M : Sections I S O L R) (N : Program P W) (doors : Doors P)
    (phase : P → Phase) (d : I → S) (F : Finset T) (s : State I S T O L R P W) : Prop where
  reachable : (lts M N doors T d).Reachable s
  oneGuard : OneGuard phase s
  busy : ∀ t, s.phase phase t ≠ .idle → t ∈ F
  owner : ∀ x ∈ s.world.records, x.thread ∈ F

/-- 残りの仕事の量。 -/
noncomputable def pending (M : Sections I S O L R) (phase : P → Phase) (F : Finset T)
    (s : State I S T O L R P W) : Nat :=
  ∑ t ∈ F, (s.phase phase t).weight + work M s.world.records

section Steps

variable (hM : N.Lawful) (hP : Phased N doors phase) (hN : Excludes T N)

include hM hP

/-- access の後、他の thread の呼び出しの種類は変わらない。 -/
theorem Inv.phase_other (h : Inv M N phase d s) {c : Call O L R} {o : StepResult P W}
    (hne : u ≠ t) : (s.access M N t i c o).phase phase u = s.phase phase u := by
  refine phase_congr rfl fun j => ?_
  rcases eq_or_ne j i with rfl | hj
  · rw [State.access_locks_self]
    rcases (hM.queued (h.locks j)).pc_other (o := o) hne with hsame | ⟨hp, hp'⟩ | ⟨hp, hp'⟩
    · rw [hsame]
    · rw [hp', hp, hP.writerWoken]
    · rw [hp', hp, hP.readerWoken]
  · rw [State.access_locks_of_ne hj]

omit hP in
theorem Inv.pc_self (h : Inv M N phase d s) {c : Call O L R} {o : StepResult P W}
    (ha : N.access ((s.locks i).pc t) (s.locks i).word o) :
    ((s.access M N t i c o).locks i).pc t = o.next := by
  obtain ⟨hw, hr⟩ := hM.access_ne ha
  rw [State.access_locks_self]
  exact (hM.queued (h.locks i)).pc_self hw hr

omit hP in
theorem Inv.phase_self (h : Inv M N phase d s) {c : Call O L R} {o : StepResult P W}
    (hc : s.call t = some (i, c)) (ha : N.access ((s.locks i).pc t) (s.locks i).word o) :
    (s.access M N t i c o).phase phase t = phase o.next := by
  have hcall : (s.access M N t i c o).call t = some (i, c) := hc
  rw [phase_of_call hcall, h.pc_self hM ha]

include hN

theorem Winding.inv (hw : Winding M N doors phase d F s) : Inv M N phase d s :=
  inv_of_reachable hM hP hN hw.reachable

theorem Winding.access (hw : Winding M N doors phase d F s) {c : Call O L R} {o : StepResult P W}
    (ht : t ∈ F) (hc : s.call t = some (i, c))
    (ha : N.access ((s.locks i).pc t) (s.locks i).word o) :
    Winding M N doors phase d F (s.access M N t i c o) := by
  have hinv := hw.inv hM hP hN
  have hstep := hP.access ha
  have hf := hinv.follow hN hc hstep (hinv.agrees t i) (.step (hinv.locks i) (.access ha))
  refine ⟨.step hw.reachable (.proceed (.access hc ha)), fun x hx hacq => ?_, fun u hu => ?_,
    fun x hx => ?_⟩
  · rcases eq_or_ne x.thread t with hxt | hxt
    · -- 取りに行く途中のままなら、区間の側では何も起きていない
      rw [hxt, hinv.phase_self hM hc ha] at hacq
      rcases hstep.next (M := M) (w := s.world) (t := t) c with hq | hq | ⟨hq, hstill⟩
      · rw [hq] at hacq
        exact (Phase.not_acquires_idle hacq).elim
      · rw [hq] at hacq
        rcases hacq with hacq | hacq <;> cases hacq
      · rw [show (s.access M N t i c o).world = s.world from hstill] at hx
        have hphase : s.phase phase x.thread = phase ((s.locks i).pc t) := by
          rw [hxt]
          exact phase_of_call hc
        rw [hq, ← hphase] at hacq
        exact hw.oneGuard x hx hacq
    · rw [hinv.phase_other hM hP hxt] at hacq
      exact hw.oneGuard x ((hf.back x hx).resolve_right hxt) hacq
  · rcases eq_or_ne u t with rfl | hne
    · exact ht
    · rw [hinv.phase_other hM hP hne] at hu
      exact hw.busy u hu
  · rcases hf.back x hx with hx | hx
    · exact hw.owner x hx
    · rw [hx]
      exact ht

theorem Winding.pending_access (hD : Drains T N phase ready rank)
    (hw : Winding M N doors phase d F s) {c : Call O L R} {o : StepResult P W} (ht : t ∈ F)
    (hc : s.call t = some (i, c)) (ha : N.access ((s.locks i).pc t) (s.locks i).word o) :
    pending M phase F (s.access M N t i c o) + (phase ((s.locks i).pc t)).due
      ≤ pending M phase F s + (phase o.next).due := by
  have hinv := hw.inv hM hP hN
  have hsum := sum_weight ht fun u hne => hinv.phase_other hM hP (i := i) (c := c) (o := o) hne
  have hwork := work_follow hc (hP.access ha) (hinv.agrees t i) (hD.calm (hinv.locks i) ha)
  rw [hinv.phase_self hM hc ha, phase_of_call hc] at hsum
  show _ + work M (World.follow M s.world t c o.effect).records + _ ≤ _
  unfold pending
  omega

/-- 一人で終えられる thread を、呼び出しが終わるまで動かす。 -/
theorem Winding.solo (hD : Drains T N phase ready rank) (hw : Winding M N doors phase d F s)
    {c : Call O L R} (hc : s.call t = some (i, c))
    (hready : ready ((s.locks i).pc t) (s.locks i).word) :
    ∃ s', ReflTransGen (Proceeds M N doors) s s' ∧ Winding M N doors phase d F s' ∧
      pending M phase F s' + (phase ((s.locks i).pc t)).due ≤ pending M phase F s := by
  induction hn : rank ((s.locks i).pc t) (s.locks i).word using Nat.strongRecOn generalizing s with
  | _ n ih =>
    obtain ⟨o, ha, hnear⟩ := hD.solo hready
    have hbusy : s.phase phase t ≠ .idle := by
      rw [phase_of_call hc]
      intro hidle
      rw [hD.idle hidle] at hready
      exact hD.busy hready
    have ht := hw.busy t hbusy
    have hw' := hw.access hM hP hN ht hc ha
    have hle := hw.pending_access hM hP hN hD ht hc ha
    have hgo : Proceeds M N doors s (s.access M N t i c o) := ⟨t, .access hc ha⟩
    rcases hnear with hidle | ⟨hnext, hrank⟩
    · refine ⟨_, .single hgo, hw', ?_⟩
      rw [hidle, hP.idle] at hle
      exact hle
    · have hpc := (hw.inv hM hP hN).pc_self hM (c := c) ha
      have hword : ((s.access M N t i c o).locks i).word = o.word := by
        rw [State.access_locks_self]
        rfl
      have hcall : (s.access M N t i c o).call t = some (i, c) := hc
      obtain ⟨s', hrun, hs', hle'⟩ := ih _ (hn ▸ hrank) hw' hcall
        (by rw [hpc, hword]; exact hnext) (by rw [hpc, hword])
      rw [hpc] at hle'
      exact ⟨s', .head hgo hrun, hs', by omega⟩

/-- 呼び出しの外に居る持ち主に、手放す呼び出しを始めから終わりまで行わせる。 -/
theorem Winding.release (hD : Drains T N phase ready rank) (hw : Winding M N doors phase d F s)
    {p : P} {c : Call O L R} (ht : t ∈ F) (hidle : s.Idle N t) (hp : (phase p).Releases)
    (hgo : Proceed M N doors s t (s.enter t i p c)) :
    ∃ s', ReflTransGen (Proceeds M N doors) s s' ∧ Winding M N doors phase d F s' ∧
      pending M phase F s' < pending M phase F s := by
  obtain ⟨hbusy, hacq, hweight, hdue⟩ := hp.spec
  have hcall : (s.enter t i p c).call t = some (i, c) := Function.update_self t _ _
  have hpc : ((s.enter t i p c).locks i).pc t = p := by
    rw [State.enter_locks_self]
    exact Function.update_self t _ _
  have hself : (s.enter t i p c).phase phase t = phase p := by rw [phase_of_call hcall, hpc]
  have hother : ∀ u, u ≠ t → (s.enter t i p c).phase phase u = s.phase phase u := fun u hne =>
    phase_enter_other hne
  have hnow : s.phase phase t = .idle := phase_of_idle hP.idle hidle
  have hw' : Winding M N doors phase d F (s.enter t i p c) := by
    refine ⟨.step hw.reachable (.proceed hgo), fun x hx hx' => ?_, fun u hu => ?_, hw.owner⟩
    · rcases eq_or_ne x.thread t with hxt | hxt
      · rw [hxt, hself] at hx'
        exact (hacq hx').elim
      · rw [hother _ hxt] at hx'
        exact hw.oneGuard x hx hx'
    · rcases eq_or_ne u t with rfl | hne
      · exact ht
      · rw [hother u hne] at hu
        exact hw.busy u hu
  have hready : ready (((s.enter t i p c).locks i).pc t) ((s.enter t i p c).locks i).word := by
    rw [hpc]
    exact hD.release hbusy hacq
  obtain ⟨s', hrun, hs', hle⟩ := hw'.solo hM hP hN hD hcall hready
  refine ⟨s', .head ⟨t, hgo⟩ hrun, hs', ?_⟩
  have hsum := sum_weight ht hother
  rw [hself, hnow, hweight, show Phase.idle.weight = 0 from rfl] at hsum
  rw [hpc, hdue] at hle
  have hpending : pending M phase F (s.enter t i p c) = pending M phase F s + 1 := by
    show ∑ u ∈ F, ((s.enter t i p c).phase phase u).weight + work M s.world.records = _
    unfold pending
    omega
  omega

/-- 動いている区間を一人で進めて、lock を放すか共有に落とす。 -/
theorem Winding.finish (hD : Drains T N phase ready rank) (hC : Completes T M d)
    (hw : Winding M N doors phase d F s) (hidle : s.Idle N t) {n : Nat} {op : O} {l : L}
    (hn : s.world.records[n]? = some ⟨t, op, .running l⟩) :
    ∃ s', ReflTransGen (Proceeds M N doors) s s' ∧ Winding M N doors phase d F s' ∧
      pending M phase F s' < pending M phase F s := by
  have hinv := hw.inv hM hP hN
  have ht : t ∈ F := hw.owner _ (List.mem_of_getElem? hn)
  obtain ⟨q, hsteps, hlast⟩ := hC s.world hinv.world n t op l hn
  have hkind : M.shared q.1 ↔ M.shared l :=
    star_preserves (P := fun p => M.shared p.1 ↔ M.shared l)
      (fun _ _ hp hstep => hstep.2.trans hp) hsteps Iff.rfl
  obtain ⟨s₁, hrun, hlocks, hcall, hdata, hrecords⟩ :
      ∃ s₁, ReflTransGen (Proceeds M N doors) s s₁ ∧ s₁.locks = s.locks ∧ s₁.call = s.call ∧
        s₁.world.data = Function.update s.world.data (M.obj op) q.2 ∧
        s₁.world.records = setStatus s.world.records n (.running q.1) :=
    proceeds_inner hidle hn rfl hsteps
  have hidle₁ : s₁.Idle N t := by
    intro i
    rw [hlocks]
    exact hidle i
  have hn₁ : s₁.world.records[n]? = some ⟨t, op, .running q.1⟩ := by
    rw [hrecords, setStatus, List.getElem?_modify_eq, hn]
    rfl
  have hphase : ∀ u, s₁.phase phase u = s.phase phase u := fun u =>
    phase_congr (congrFun hcall u) fun i => by rw [hlocks]
  have hfree : s.phase phase t = .idle := phase_of_idle hP.idle hidle
  have hw₁ : Winding M N doors phase d F s₁ := by
    refine ⟨reachable_proceeds hw.reachable hrun, fun x hx hacq => ?_, fun u hu => ?_,
      fun x hx => ?_⟩
    · rw [hphase] at hacq
      rw [hrecords] at hx
      rcases mem_setStatus hn hx with hx | hx
      · exact hw.oneGuard x hx hacq
      · rw [hx, hfree] at hacq
        exact (Phase.not_acquires_idle hacq).elim
    · rw [hphase] at hu
      exact hw.busy u hu
    · rw [hrecords] at hx
      rcases mem_setStatus hn hx with hx | hx
      · exact hw.owner x hx
      · rw [hx]
        exact ht
  have hpending : pending M phase F s₁ = pending M phase F s := by
    have hset := work_setStatus (M := M) hn (.running q.1)
    have hsame : Status.work M (.running q.1 : Status L R) = Status.work M (.running l) := by
      by_cases hl : M.shared l
      · rw [work_shared hl, work_shared (hkind.mpr hl)]
      · rw [work_exclusive hl, work_exclusive fun hq => hl (hkind.mp hq)]
    unfold pending
    rw [hrecords, Finset.sum_congr rfl fun u _ => by rw [hphase u]]
    omega
  have hrest : ∃ s', ReflTransGen (Proceeds M N doors) s₁ s' ∧ Winding M N doors phase d F s' ∧
      pending M phase F s' < pending M phase F s₁ := by
    rcases hlast with ⟨r, hr⟩ | ⟨hq, l', hl', hdown⟩
    · by_cases hq : M.shared q.1
      · exact hw₁.release hM hP hN hD ht hidle₁ (by rw [hP.unlockShared.2]; exact Or.inl rfl)
          (.unlockShared hidle₁ hn₁ hq hr)
      · exact hw₁.release hM hP hN hD ht hidle₁
          (by rw [hP.unlockExclusive.2]; exact Or.inr (Or.inl rfl))
          (.unlockExclusive hidle₁ hn₁ hq hr)
    · refine hw₁.release hM hP hN hD ht hidle₁
        (by rw [hP.downgrade.2]; exact Or.inr (Or.inr rfl)) (.downgrade hidle₁ hn₁ hq hl' ?_)
      rw [hdata, Function.update_self]
      exact hdown
  obtain ⟨s', hrun', hs', hlt⟩ := hrest
  exact ⟨s', hrun.trans hrun', hs', hpending ▸ hlt⟩

/-- 終わっていない区間か、途中の呼び出しがあれば、残りの仕事を減らせる。 -/
theorem Winding.progress (hD : Drains T N phase ready rank) (hC : Completes T M d)
    (hw : Winding M N doors phase d F s) :
    ((∀ x ∈ s.world.records, ∃ r, x.status = .finished r) ∧ ∀ i, s.locks i = N.init) ∨
      ∃ s', ReflTransGen (Proceeds M N doors) s s' ∧ Winding M N doors phase d F s' ∧
        pending M phase F s' < pending M phase F s := by
  have hinv := hw.inv hM hP hN
  by_cases hready : ∃ t i, ready ((s.locks i).pc t) (s.locks i).word
  · obtain ⟨t, i, hready⟩ := hready
    have hbusy : phase ((s.locks i).pc t) ≠ .idle := fun hidle =>
      hD.busy (hD.idle hidle ▸ hready)
    obtain ⟨c, hc⟩ := (hinv.agrees t i).index hbusy
    obtain ⟨s', hrun, hs', hle⟩ := hw.solo hM hP hN hD hc hready
    have hdue := Phase.due_pos hbusy
    exact Or.inr ⟨s', hrun, hs', by omega⟩
  · by_cases hrunning : ∃ (n : Nat) (t : T) (op : O) (l : L),
        s.world.records[n]? = some ⟨t, op, .running l⟩
    · obtain ⟨n, t, op, l, hn⟩ := hrunning
      refine Or.inr (hw.finish hM hP hN hD hC (fun i => ?_) hn)
      -- 区間の持ち主は取りに行かず、手放す途中なら一人で終えられる
      by_contra hpc
      have hbusy : phase ((s.locks i).pc t) ≠ .idle := fun hidle => hpc (hD.idle hidle)
      obtain ⟨c, hc⟩ := (hinv.agrees t i).index hbusy
      refine hready ⟨t, i, hD.release hbusy fun hacq => ?_⟩
      have hphase : s.phase phase t = phase ((s.locks i).pc t) := phase_of_call hc
      rw [← hphase] at hacq
      obtain ⟨r, hr⟩ := hw.oneGuard _ (List.mem_of_getElem? hn) hacq
      cases hr
    · have hdone : ∀ x ∈ s.world.records, ∃ r, x.status = .finished r := by
        intro x hx
        obtain ⟨n, hn⟩ := List.mem_iff_getElem?.mp hx
        obtain ⟨t, op, st⟩ := x
        cases st with
        | finished r => exact ⟨r, rfl⟩
        | running l => exact (hrunning ⟨n, t, op, l, hn⟩).elim
      have hnone : ∀ (Q : L → Prop) (i : I), holders M Q i s.world.records = 0 := by
        refine fun Q i => Multiset.eq_zero_of_forall_notMem fun t ht => ?_
        obtain ⟨x, hx, -, -, l, hl, -⟩ := mem_holders.mp ht
        obtain ⟨r, hr⟩ := hdone x hx
        rw [hr] at hl
        cases hl
      refine Or.inl ⟨hdone, fun i => hD.stuck (hinv.locks i) ?_ ?_ fun t ht => hready ⟨t, i, ht⟩⟩
      · rw [hinv.exclusive, hnone]
      · rw [hinv.shared, hnone]

/-- 動いたことのある thread は有限個である。 -/
theorem exists_winding (h : (lts M N doors T d).Reachable s) (hone : OneGuard phase s) :
    ∃ F, Winding M N doors phase d F s := by
  suffices hfin : ∃ F : Finset T, (∀ t, s.phase phase t ≠ .idle → t ∈ F) ∧
      ∀ x ∈ s.world.records, x.thread ∈ F by
    obtain ⟨F, hbusy, howner⟩ := hfin
    exact ⟨F, h, hone, hbusy, howner⟩
  clear hone
  induction h with
  | init hs =>
    obtain rfl := hs
    exact ⟨∅, fun t ht => (ht rfl).elim, fun x hx => (by cases hx)⟩
  | @step s s' t hr hstep ih =>
    obtain ⟨F, hbusy, howner⟩ := ih
    have hinv := inv_of_reachable hM hP hN hr
    -- 他の thread は、動く thread を加えるだけで覆われたままである
    have hcover : (∀ u, u ≠ t → s'.phase phase u = s.phase phase u) →
        (∀ x ∈ s'.world.records, x ∈ s.world.records ∨ x.thread = t) →
        ∃ F : Finset T, (∀ u, s'.phase phase u ≠ .idle → u ∈ F) ∧
          ∀ x ∈ s'.world.records, x.thread ∈ F := by
      intro hother hback
      refine ⟨insert t F, fun u hu => ?_, fun x hx => ?_⟩
      · rcases eq_or_ne u t with rfl | hne
        · exact Finset.mem_insert_self u F
        · rw [hother u hne] at hu
          exact Finset.mem_insert_of_mem (hbusy u hu)
      · rcases hback x hx with hx | rfl
        · exact Finset.mem_insert_of_mem (howner x hx)
        · exact Finset.mem_insert_self _ F
    cases hstep with
    | lock hidle hp => exact hcover (fun u hne => phase_enter_other hne) fun x => Or.inl
    | proceed hgo =>
      cases hgo with
      | unlockShared | unlockExclusive | downgrade =>
        exact hcover (fun u hne => phase_enter_other hne) fun x => Or.inl
      | access hc ha =>
        have hf := hinv.follow hN hc (hP.access ha) (hinv.agrees t _)
          (.step (hinv.locks _) (.access ha))
        exact hcover (fun u hne => hinv.phase_other hM hP hne) hf.back
      | move hidle hn hmove hl =>
        exact hcover (fun u _ => phase_congr rfl fun _ => rfl) fun x => mem_setStatus hn

/--
新しい操作を始めずに、始まった操作をすべて終えて、lock をどれも初めの状態に戻せる。
-/
theorem drains (hD : Drains T N phase ready rank) (hC : Completes T M d)
    (h : (lts M N doors T d).Reachable s) (hone : OneGuard phase s) :
    ∃ s', ReflTransGen (Proceeds M N doors) s s' ∧ s.started <+: s'.started ∧
      (∀ x ∈ s'.world.records, ∃ r, x.status = .finished r) ∧ ∀ i, s'.locks i = N.init := by
  obtain ⟨F, hF⟩ := exists_winding hM hP hN h hone
  obtain ⟨s', hrun, -, hdone⟩ := star_of_decreasing (P := Winding M N doors phase d F)
    (pending M phase F) (fun _ hs => hs.progress hM hP hN hD hC) hF
  have hkeep : s.started <+: s'.started :=
    star_preserves (P := fun s' => s.started <+: s'.started)
      (fun _ _ hp ⟨_, hgo⟩ => hp.trans hgo.started) hrun List.prefix_rfl
  exact ⟨s', hrun, hkeep, hdone⟩

end Steps

end Drain

end Infra.Locked
