import Xv6.Logging.Machine

set_option linter.unusedSectionVars false

namespace Xv6.Logging

open Lib.Replay Lib.Transition
open Function (update update_of_ne update_self)

variable {P : Type} [DecidableEq P] [Fintype P]

def Mode.pins (block : List ℕ) : Mode P → List ℕ
  | .running | .writeLog _ _ | .writeHead _ => block
  | .install _ tail => block.drop tail
  | _ => []

def waits (want : P → Option (Fin nBuf)) (i : Fin nBuf) : ℕ := ∑ p, if want p = some i then 1 else 0

def Machine.durable (m : Machine P) : List Txn :=
  match m.mode with
  | .writeLog _ _ | .writeHead _ => m.cur.txns.dropLast
  | _ => m.cur.txns

def Kept (e : Epoch) (k : List Txn) : Prop := k <+: e.txns ∧ e.returned ≤ k.length

def Machine.Phase (start : ℕ) (m : Machine P) : Prop :=
  let d := m.c.disk
  let block := m.st.log.block
  match m.mode with
  | .running => readEntries (d start) = []
  | .writeLog p tail => readEntries (d start) = [] ∧ m.st.pc p = .committing ∧
      Copied start d block m.logged tail ∧ ∃ pre, m.cur.txns = pre ++ [m.txn]
  | .writeHead p => readEntries (d start) = [] ∧ m.st.pc p = .committing ∧
      Copied start d block m.logged block.length ∧ ∃ pre, m.cur.txns = pre ++ [m.txn]
  | .install p tail => readEntries (d start) = block ∧ m.st.pc p = .committing ∧ Installed start d tail
  | .clear p => readEntries (d start) = block ∧ m.st.pc p = .committing ∧ Installed start d block.length
  | .done p => readEntries (d start) = [] ∧ m.st.pc p = .committing ∧ block = []
  | .readHead => True
  | .reinstall tail => readEntries (d start) = block ∧ Installed start d tail
  | .reclear => readEntries (d start) = block ∧ Installed start d block.length

structure MachineInv (start size : ℕ) (d₀ : ℕ → Block) (m : Machine P) : Prop where
  proto : Inv m.st
  area : m.st.log.size = size
  cache : ∃ L, CacheInv m.c (m.mode.pins m.st.log.block) (waits m.want) m.dirty L ∧
    ∀ b ∈ m.mode.pins m.st.log.block, L b = m.logged b
  dirty : ∀ i, m.dirty i = true → ∃ p, (m.c.buf i).lock = some p ∧ (m.st.pc p).isActive = 1
  block : ∀ b ∈ m.st.log.block, ¬ InLog start size b ∧ b < 2 ^ 32
  fits : m.st.log.block.length + 1 ≤ size ∧ m.st.log.block.length ≤ logSize
  booting : m.mode.booting = true → m.st.log.outstanding = 0 ∧ m.cur = ⟨[], 0⟩
  disk : ∃ kept, List.Forall₂ Kept m.past kept ∧
    Recoverable start size m.c.disk d₀ (kept.flatten ++ m.durable).flatten
  returned : m.cur.returned ≤ m.durable.length
  phase : m.Phase start

theorem waits_update (want : P → Option (Fin nBuf)) (p : P) (o : Option (Fin nBuf)) (i : Fin nBuf) :
    waits (update want p o) i + (if want p = some i then 1 else 0) =
      waits want i + (if o = some i then 1 else 0) :=
  Lib.sum_update_add (fun _ o => if o = some i then 1 else 0) want p o

theorem waits_wait {want : P → Option (Fin nBuf)} {p : P} (hp : want p = none) (i : Fin nBuf) :
    waits (update want p (some i)) = update (waits want) i (waits want i + 1) := by
  funext j
  have h := waits_update want p (some i) j
  simp only [hp, reduceCtorEq, ↓reduceIte, Nat.add_zero, Option.some.injEq] at h
  by_cases hj : j = i
  · subst hj
    simpa using h
  · rw [update_of_ne hj]
    simpa [Ne.symm hj] using h

theorem waits_take {want : P → Option (Fin nBuf)} {p : P} {i : Fin nBuf} (hp : want p = some i) :
    0 < waits want i ∧
      waits (update want p none) = update (waits want) i (waits want i - 1) := by
  have h (j : Fin nBuf) := waits_update want p none j
  simp only [hp, Option.some.injEq, reduceCtorEq, ↓reduceIte, Nat.add_zero] at h
  constructor
  · have := h i
    simp only [↓reduceIte] at this
    omega
  · funext j
    by_cases hj : j = i
    · subst hj
      have := h j
      simp only [↓reduceIte] at this
      rw [update_self]
      omega
    · rw [update_of_ne hj]
      simpa [Ne.symm hj] using h j

theorem Pc.active_of_isActive {c : Pc} (h : c.isActive = 1) : c = .active c.logged := by
  cases c <;> simp_all [Pc.isActive, Pc.logged]

theorem le_sum_two {f : Pc → ℕ} (pc : P → Pc) {p q : P} (h : q ≠ p) :
    f (pc q) + f (pc p) ≤ ∑ r, f (pc r) := by
  rw [← Finset.sum_pair (f := fun r => f (pc r)) h]
  exact Finset.sum_le_sum_of_subset (Finset.subset_univ _)

theorem Mode.pins_subset (mode : Mode P) (block : List ℕ) : mode.pins block ⊆ block := by
  intro b hb
  cases mode <;> simp_all [Mode.pins]
  exact List.mem_of_mem_drop hb

namespace MachineInv

variable {start size : ℕ} {d₀ : ℕ → Block} {m : Machine P} {p : P} {i : Fin nBuf}

theorem home (h : MachineInv start size d₀ m) {b : ℕ} (hb : b ∈ m.st.log.block) {i : ℕ}
    (hi : i + 1 < size) : start + i + 1 ≠ b := by
  rintro rfl
  exact (h.block _ hb).1 ⟨by omega, by omega⟩

theorem running (h : MachineInv start size d₀ m) (hp : (m.st.pc p).isActive = 1) :
    m.mode = .running := by
  have ho := h.proto.active_pos (Pc.active_of_isActive hp)
  have hq : m.st.log.committing = false := by
    by_contra hc
    have := h.proto.quiet (by simpa using hc)
    omega
  have hn {q : P} : m.st.pc q ≠ .committing := fun hc => by
    simp [h.proto.committing_of_pc hc] at hq
  have hb : m.mode.booting = false := by
    by_contra hb
    have := (h.booting (by simpa using hb)).1
    omega
  have hphase := h.phase
  unfold Machine.Phase at hphase
  cases hm : m.mode <;> simp_all [Mode.booting]

theorem clean (h : MachineInv start size d₀ m) (hm : m.mode ≠ .running) (i : Fin nBuf) :
    m.dirty i = false := by
  by_contra hd
  obtain ⟨p, -, hp⟩ := h.dirty i (by simpa using hd)
  exact hm (h.running hp)

theorem phase_of_disk {c' : Bcache P} (hd : c'.disk = m.c.disk) (want : P → Option (Fin nBuf))
    (dirty : Fin nBuf → Bool) (h : m.Phase start) :
    Machine.Phase start { m with c := c', want := want, dirty := dirty } := by
  unfold Machine.Phase at h ⊢
  simp only [hd]
  cases hm : m.mode <;> simp only [hm] at h ⊢ <;> exact h

theorem of_cache (h : MachineInv start size d₀ m) {c' : Bcache P} {want : P → Option (Fin nBuf)}
    {dirty : Fin nBuf → Bool} (hd : c'.disk = m.c.disk)
    (hc : ∀ L, CacheInv m.c (m.mode.pins m.st.log.block) (waits m.want) m.dirty L →
      CacheInv c' (m.mode.pins m.st.log.block) (waits want) dirty L)
    (hl : ∀ i, dirty i = true → ∃ p, (c'.buf i).lock = some p ∧ (m.st.pc p).isActive = 1) :
    MachineInv start size d₀ { m with c := c', want := want, dirty := dirty } := by
  obtain ⟨L, hL, hlog⟩ := h.cache
  refine ⟨h.proto, h.area, ⟨L, hc L hL, hlog⟩, hl, h.block, h.fits, h.booting, ?_, h.returned,
    phase_of_disk hd want dirty h.phase⟩
  simp only [hd]
  exact h.disk

theorem bget (h : MachineInv start size d₀ m) {b : ℕ} {m' : Machine P} (hp : m.want p = none)
    (hs : m.bget p b = some m') : MachineInv start size d₀ m' := by
  obtain ⟨⟨c', i⟩, hb, rfl⟩ := Option.map_eq_some_iff.mp hs
  obtain ⟨L₀, hL₀, -⟩ := h.cache
  obtain ⟨-, -, hd, ho⟩ := hL₀.bget hb
  refine h.of_cache hd ?_ ?_
  · intro L hL
    rw [waits_wait hp]
    exact (hL.bget hb).1
  · intro j hj
    obtain ⟨q, hq, ha⟩ := h.dirty j hj
    refine ⟨q, ?_, ha⟩
    by_cases hji : j = i
    · subst hji
      unfold Bcache.bget at hb
      split at hb
      · cases hb
        simpa using hq
      · split at hb
        · cases hb
          simpa using hq
        · cases hb
    · rw [ho j hji]
      exact hq

theorem acquire (h : MachineInv start size d₀ m) {m' : Machine P} (hs : m.acquire p = some m') :
    MachineInv start size d₀ m' := by
  obtain ⟨i, hi, hs⟩ := Option.bind_eq_some_iff.mp hs
  obtain ⟨c', hb, rfl⟩ := Option.map_eq_some_iff.mp hs
  obtain ⟨hpos, hwait⟩ := waits_take hi
  obtain ⟨L₀, hL₀, -⟩ := h.cache
  have hc : m.c.Caches i (m.c.buf i).blockno := ⟨(hL₀.ok i).used hpos, rfl⟩
  obtain ⟨-, -, hd, ho, -, -, hclean⟩ := hL₀.acquire hc hpos hb
  refine h.of_cache hd ?_ ?_
  · intro L hL
    rw [hwait]
    exact (hL.acquire hc hpos hb).1
  · intro j hj
    have hji : j ≠ i := by
      rintro rfl
      rw [hclean] at hj
      cases hj
    rw [ho j hji]
    exact h.dirty j hj

theorem modify (h : MachineInv start size d₀ m) (hp : (m.st.pc p).isActive = 1)
    (hl : (m.c.buf i).lock = some p) (d : Block) : MachineInv start size d₀ (m.modify i d) := by
  refine h.of_cache rfl (fun L hL => hL.setData (by simp [hl]) d) ?_
  intro j hj
  by_cases hji : j = i
  · subst hji
    exact ⟨p, by simpa [Bcache.setData] using hl, hp⟩
  · rw [update_of_ne hji] at hj
    simpa only [Bcache.setData, Bcache.set_buf_of_ne hji] using h.dirty j hj

theorem brelse (h : MachineInv start size d₀ m) (hl : (m.c.buf i).lock = some p)
    (hd : m.dirty i = false) : MachineInv start size d₀ { m with c := m.c.brelse i } := by
  refine h.of_cache (CacheInv.brelse_disk _ _) (fun L hL => hL.brelse (by simp [hl]) hd) ?_
  intro j hj
  have hji : j ≠ i := by
    rintro rfl
    rw [hd] at hj
    cases hj
  rw [CacheInv.brelse_buf_of_ne _ hji]
  exact h.dirty j hj

theorem of_proto (h : MachineInv start size d₀ m) {st : St P} (hi : Inv st)
    (hs : st.log.size = m.st.log.size) (hb : st.log.block = m.st.log.block)
    (hboot : m.mode.booting = false)
    (ha : ∀ i q, (m.c.buf i).lock = some q → (m.st.pc q).isActive = 1 → (st.pc q).isActive = 1)
    (hc : ∀ q, m.st.pc q = .committing → st.pc q = .committing) :
    MachineInv start size d₀ { m with st := st } := by
  refine ⟨hi, hs.trans h.area, by simpa only [hb] using h.cache, ?_, by simpa only [hb] using h.block,
    by simpa only [hb] using h.fits, by simp [hboot], h.disk, h.returned, ?_⟩
  · intro i hd
    obtain ⟨q, hq, hqa⟩ := h.dirty i hd
    exact ⟨q, hq, ha i q hq hqa⟩
  · have hphase := h.phase
    unfold Machine.Phase Machine.txn at hphase ⊢
    simp only [hb]
    cases hm : m.mode <;> simp only [hm] at hphase ⊢
    case running => exact hphase
    case reinstall => exact hphase
    case reclear => exact hphase
    all_goals exact ⟨hphase.1, hc _ hphase.2.1, hphase.2.2⟩

theorem isActive_update {pc : P → Pc} {q : P} {c : Pc} (hc : c.isActive = 1)
    (h : (pc q).isActive = 1) : (update pc p c q).isActive = 1 := by
  by_cases hq : q = p
  · rw [hq, update_self, hc]
  · rwa [update_of_ne hq]

theorem begin (h : MachineInv start size d₀ m) (hboot : m.mode.booting = false) {st : St P}
    (hs : step m.st (.begin p) = some st) : MachineInv start size d₀ { m with st := st } := by
  have hstep := (step_inv hs).2
  have hi := h.proto.of_step hstep
  have hne {q : P} {c : Pc} (hp : m.st.pc p = .idle ∨ m.st.pc p = .woken)
      (hq : (m.st.pc q).isActive = 1 ∨ m.st.pc q = .committing) :
      update m.st.pc p c q = m.st.pc q := by
    apply update_of_ne
    rintro rfl
    rcases hp with hp | hp <;> simp [hp, Pc.isActive] at hq
  cases hstep with
  | sleep hp hb =>
    exact h.of_proto hi rfl rfl hboot (fun i q _ hq => (congrArg Pc.isActive (hne hp (Or.inl hq))).trans hq)
      (fun q hq => (hne hp (Or.inr hq)).trans hq)
  | enter hp hc hn =>
    exact h.of_proto hi rfl rfl hboot (fun i q _ hq => isActive_update rfl hq)
      (fun q hq => (hne hp (Or.inr hq)).trans hq)

theorem logWrite_st (m : Machine P) (p : P) (l : List ℕ) (i : Fin nBuf) :
    (m.logWrite p l i).st = m.st.logWrite p l (m.c.buf i).blockno := by
  unfold Machine.logWrite St.logWrite
  dsimp only
  cases Logging.logWrite m.st.log (m.c.buf i).blockno <;> rfl

theorem logWrite (h : MachineInv start size d₀ m) (hp : (m.st.pc p).isActive = 1)
    (hl : (m.c.buf i).lock = some p) (hb : ¬ InLog start size (m.c.buf i).blockno)
    (hw : (m.c.buf i).blockno < 2 ^ 32) :
    MachineInv start size d₀ (m.logWrite p (m.st.pc p).logged i) := by
  have hm := h.running hp
  have hstep := logWrite_step (Pc.active_of_isActive hp) (m.c.buf i).blockno
  have hi := h.proto.of_step hstep
  have hst := logWrite_st m p (m.st.pc p).logged i
  obtain ⟨L, hL, hlog⟩ := h.cache
  have hphase := h.phase
  simp only [Machine.Phase, hm, Mode.pins] at hphase hL hlog
  have hcache : m.c.Caches i (m.c.buf i).blockno := ⟨((hL.ok i).locked (by simp [hl])).2, rfl⟩
  have hlog' {x : ℕ} (hx : x = (m.c.buf i).blockno ∨ x ∈ m.st.log.block) :
      update L (m.c.buf i).blockno (m.c.buf i).data x =
        update m.logged (m.c.buf i).blockno (m.c.buf i).data x := by
    by_cases hxb : x = (m.c.buf i).blockno
    · simp [hxb]
    · rw [update_of_ne hxb, update_of_ne hxb]
      exact hlog x (hx.resolve_left hxb)
  have hdirty {c' : Bcache P} (hc' : ∀ j, (c'.buf j).lock = (m.c.buf j).lock) (j : Fin nBuf)
      (hj : update m.dirty i false j = true) : ∃ q, (c'.buf j).lock = some q ∧
        (update m.st.pc p (.active ((m.st.pc p).logged.insert (m.c.buf i).blockno)) q).isActive
          = 1 := by
    have hji : j ≠ i := by
      rintro rfl
      simp at hj
    rw [update_of_ne hji] at hj
    obtain ⟨q, hq, ha⟩ := h.dirty j hj
    exact ⟨q, (hc' j).trans hq, isActive_update rfl ha⟩
  unfold St.logWrite Logging.logWrite at hi
  unfold Machine.logWrite Logging.logWrite
  dsimp only
  split_ifs at hi ⊢ with hn ho hmem
  · exact ⟨hi, h.area, h.cache, h.dirty, h.block, h.fits, h.booting, h.disk, h.returned, h.phase⟩
  · exact ⟨hi, h.area, h.cache, h.dirty, h.block, h.fits, h.booting, h.disk, h.returned, h.phase⟩
  · refine ⟨hi, h.area, ⟨_, by simpa [hm, Mode.pins] using hL.relog hcache hmem, ?_⟩,
      hdirty (fun _ => rfl), h.block, h.fits, h.booting, h.disk, h.returned, ?_⟩
    · intro x hx
      exact hlog' (Or.inr (by simpa [hm, Mode.pins] using hx))
    · simpa [Machine.Phase, hm] using hphase
  · refine ⟨hi, h.area, ⟨update L (m.c.buf i).blockno (m.c.buf i).data, ?_, ?_⟩, hdirty ?_,
      ?_, ?_, h.booting, h.disk, h.returned, ?_⟩
    · have := hL.pin hcache hmem ((hL.ok i).locked (by simp [hl])).1
      simpa [hm, Mode.pins] using this
    · intro x hx
      simp only [hm, Mode.pins, List.mem_append, List.mem_singleton] at hx
      exact hlog' hx.symm
    · intro j
      by_cases hji : j = i
      · subst hji
        simp [Bcache.bpin]
      · simp [Bcache.bpin, Bcache.set_buf_of_ne hji]
    · intro x hx
      rcases List.mem_append.mp hx with hx | hx
      · exact h.block x hx
      · rw [List.mem_singleton] at hx
        exact hx ▸ ⟨hb, hw⟩
    · have ha := h.area
      simp only [Log.n] at hn
      simp only [List.length_append, List.length_singleton]
      omega
    · simpa [Machine.Phase, hm, Bcache.bpin] using hphase

theorem endOp (h : MachineInv start size d₀ m) (hp : (m.st.pc p).isActive = 1)
    (hl : ∀ i, (m.c.buf i).lock ≠ some p) : MachineInv start size d₀ (m.endOp p) := by
  have hm := h.running hp
  have hstep := endOp_step (Pc.active_of_isActive hp)
  have hi := h.proto.of_step hstep
  have hboot : m.mode.booting = false := by rw [hm]; rfl
  have hclean (i : Fin nBuf) (q : P) (hq : (m.c.buf i).lock = some q) : q ≠ p := by
    rintro rfl
    exact hl i hq
  have hne {q : P} (hq : m.st.pc q = .committing) : q ≠ p := by
    rintro rfl
    simp [hq, Pc.isActive] at hp
  generalize hst : m.st.endOp p = st at hstep hi
  unfold Machine.endOp
  rw [hst]
  cases hstep with
  | reenter ha hc =>
    have := h.proto.active_pos ha
    have := h.proto.quiet hc
    omega
  | leave ha hc ho =>
    have hpc : wakeup (update m.st.pc p .idle) p ≠ .committing := by
      simp [wakeup]
    dsimp only
    rw [if_neg hpc]
    refine h.of_proto hi rfl rfl hboot ?_ ?_
    · intro i q hq hqa
      have hqp := hclean i q hq
      have hact := Pc.active_of_isActive hqa
      generalize (m.st.pc q).logged = l at hact
      simp [wakeup, hqp, hact, Pc.isActive]
    · intro q hq
      simp [wakeup, hne hq, hq]
  | commit ha hc ho =>
    have hdirty (i : Fin nBuf) : m.dirty i = false := by
      by_contra hd
      obtain ⟨q, hq, hqa⟩ := h.dirty i (by simpa using hd)
      have hqi := le_sum_two (f := Pc.isActive) m.st.pc (hclean i q hq)
      rw [← h.proto.outstanding] at hqi
      omega
    obtain ⟨L, hL, hlog⟩ := h.cache
    obtain ⟨kept, hkept, hrec⟩ := h.disk
    have hphase := h.phase
    have hret := h.returned
    simp only [Machine.Phase, Machine.durable, hm, Mode.pins] at hphase hL hlog hrec hret
    simp only [update_self, ↓reduceIte]
    split_ifs with hn
    · refine ⟨hi, h.area, ⟨L, hL, hlog⟩, by simp [hdirty], h.block, h.fits, by simp [Mode.booting], ⟨kept, hkept, ?_⟩,
        ?_, ?_⟩
      · simpa [Machine.durable] using hrec
      · simpa [Machine.durable] using hret
      · exact ⟨hphase, by simp, fun i b hi => by omega, _, rfl⟩
    · have hnil : m.st.log.block = [] := by simpa [Log.n] using hn
      rw [hnil] at hL
      exact ⟨hi, h.area, ⟨L, hL, by simp [Mode.pins]⟩, by simp [hdirty], h.block, h.fits,
        by simp [Mode.booting], ⟨kept, hkept, hrec⟩, hret, hphase, by simp, hnil⟩

theorem of_commit (h : MachineInv start size d₀ m) (hm : m.mode ≠ .running) {c' : Bcache P}
    {mode : Mode P} (hboot : mode.booting = true → m.mode.booting = true)
    (hc : ∃ L, CacheInv c' (mode.pins m.st.log.block) (waits m.want) m.dirty L ∧
      ∀ b ∈ mode.pins m.st.log.block, L b = m.logged b)
    (hr : ∃ kept, List.Forall₂ Kept m.past kept ∧ Recoverable start size c'.disk d₀
      (kept.flatten ++ Machine.durable { m with c := c', mode := mode }).flatten)
    (hret : m.cur.returned ≤ (Machine.durable { m with c := c', mode := mode }).length)
    (hp : Machine.Phase start { m with c := c', mode := mode }) :
    MachineInv start size d₀ { m with c := c', mode := mode } :=
  ⟨h.proto, h.area, hc, fun i hd => absurd hd (by simp [h.clean hm i]), h.block, h.fits,
    fun hb => h.booting (hboot hb), hr, hret, hp⟩

theorem commit_writeLog (h : MachineInv start size d₀ m) {tail : ℕ} (hm : m.mode = .writeLog p tail)
    {m' : Machine P} (hs : m.commit start = some m') : MachineInv start size d₀ m' := by
  obtain ⟨L, hL, hlog⟩ := h.cache
  obtain ⟨kept, hkept, hrec⟩ := h.disk
  obtain ⟨hnil, hpc, hcopy, htxn⟩ : _ ∧ _ ∧ _ ∧ _ := by simpa only [Machine.Phase, hm] using h.phase
  have hret := h.returned
  simp only [Machine.durable, hm, Mode.pins] at hL hlog hrec hret
  simp only [Machine.commit, hm] at hs
  cases hb : m.st.log.block[tail]? with
  | some b =>
    simp only [hb, Option.map_eq_some_iff] at hs
    obtain ⟨c', hw, rfl⟩ := hs
    have hmem := List.mem_of_getElem? hb
    have hlt := (List.getElem?_eq_some_iff.mp hb).1
    have hfit : tail + 1 < size := by
      have := h.fits.1
      omega
    obtain ⟨hc', hd⟩ := hL.writeLog (h.home hmem hfit) hw
    refine h.of_commit (by simp [hm]) (by simp [Mode.booting]) ⟨_, hc', ?_⟩ ⟨kept, hkept, ?_⟩ hret ?_
    · intro x hx
      rw [update_of_ne (h.home hx hfit).symm]
      exact hlog x hx
    · rw [hd]
      exact hrec.writeLog hnil hfit _
    · refine ⟨?_, hpc, ?_, htxn⟩
      · rw [hd, update_of_ne (by omega), hnil]
      · simp only [hd]
        exact hcopy.write hb (hlog b hmem)
  | none =>
    simp only [hb, Option.some.injEq] at hs
    subst hs
    refine h.of_commit (by simp [hm]) (by simp [Mode.booting]) ⟨L, hL, hlog⟩ ⟨kept, hkept, hrec⟩ hret ?_
    refine ⟨hnil, hpc, fun i b (hi : i < m.st.log.block.length) => hcopy i b ?_, htxn⟩
    have := List.getElem?_eq_none_iff.mp hb
    omega

theorem commit_writeHead (h : MachineInv start size d₀ m) (hm : m.mode = .writeHead p)
    {m' : Machine P} (hs : m.commit start = some m') : MachineInv start size d₀ m' := by
  obtain ⟨L, hL, hlog⟩ := h.cache
  obtain ⟨kept, hkept, hrec⟩ := h.disk
  obtain ⟨hnil, hpc, hcopy, pre, htxn⟩ : _ ∧ _ ∧ _ ∧ _ := by
    simpa only [Machine.Phase, hm] using h.phase
  have hret := h.returned
  simp only [Machine.durable, hm, Mode.pins, htxn, List.dropLast_concat] at hL hlog hrec hret
  simp only [Machine.commit, hm, Option.map_eq_some_iff] at hs
  obtain ⟨c', hw, rfl⟩ := hs
  obtain ⟨hc', hd⟩ := hL.writeHead hw
  have hfits := h.fits
  have hread : readEntries (fillHead (L start) m.st.log.block) = m.st.log.block := by
    refine readEntries_fillHead _ _ ?_ (fun b hb => (h.block b hb).2)
    simp only [logSize, maxOpBlocks] at hfits
    omega
  refine h.of_commit (by simp [hm]) (by simp [Mode.booting]) ⟨_, hc', ?_⟩ ⟨kept, hkept, ?_⟩ ?_ ?_
  · intro x hx
    have hne : x ≠ start := by
      rintro rfl
      exact (h.block _ hx).1 ⟨le_refl _, by omega⟩
    rw [update_of_ne hne]
    exact hlog x hx
  · have := hrec.writeHead hnil hcopy h.proto.nodup (fun b hb => (h.block b hb).1) hfits hread
    rw [hd]
    simpa [Machine.durable, htxn, Machine.txn] using this
  · simp only [Machine.durable, htxn, List.length_append]
    omega
  · refine ⟨?_, hpc, fun i b hi => by omega⟩
    rw [hd, update_self, hread]

theorem commit_install (h : MachineInv start size d₀ m) {tail : ℕ} (hm : m.mode = .install p tail)
    {m' : Machine P} (hs : m.commit start = some m') : MachineInv start size d₀ m' := by
  obtain ⟨L, hL, hlog⟩ := h.cache
  obtain ⟨kept, hkept, hrec⟩ := h.disk
  obtain ⟨hread, hpc, hinst⟩ : _ ∧ _ ∧ _ := by simpa only [Machine.Phase, hm] using h.phase
  have hret := h.returned
  simp only [Machine.durable, hm, Mode.pins] at hL hlog hrec hret
  simp only [Machine.commit, hm] at hs
  cases hb : m.st.log.block[tail]? with
  | some b =>
    simp only [hb, Option.map_eq_some_iff] at hs
    obtain ⟨c', hw, rfl⟩ := hs
    have hmem := List.mem_of_getElem? hb
    obtain ⟨hlt, hget⟩ := List.getElem?_eq_some_iff.mp hb
    have hfit : tail + 1 < size := by
      have := h.fits.1
      omega
    have hdrop : m.st.log.block.drop tail = b :: m.st.log.block.drop (tail + 1) := by
      rw [List.drop_eq_getElem_cons hlt, hget]
    have hnd : b ∉ m.st.log.block.drop (tail + 1) := by
      have := h.proto.nodup.sublist (List.drop_sublist tail _)
      rw [hdrop] at this
      exact (List.nodup_cons.mp this).1
    have harea : L (start + tail + 1) = m.c.disk (start + tail + 1) :=
      hL.home _ (fun hx => h.home (List.mem_of_mem_drop hx) hfit rfl)
    rw [hdrop] at hL
    obtain ⟨hc', hd⟩ := hL.installTrans hnd (h.home hmem hfit) hw
    rw [harea] at hd
    have hb' : (readEntries (m.c.disk start))[tail]? = some b := by rw [hread, hb]
    refine h.of_commit (by simp [hm]) (by simp [Mode.booting]) ⟨_, hc', ?_⟩ ⟨kept, hkept, ?_⟩ hret ?_
    · intro x hx
      have hne : x ≠ b := by
        rintro rfl
        exact hnd hx
      rw [update_of_ne hne]
      exact hlog x (by rw [hdrop]; exact List.mem_cons_of_mem _ hx)
    · rw [hd]
      exact hrec.install (List.mem_of_getElem? hb') _
    · refine ⟨?_, hpc, ?_⟩
      · rw [hd, update_of_ne (hrec.not_mem_area (List.mem_of_getElem? hb')).1, hread]
      · simp only [hd]
        exact hrec.installed_succ hinst hb'
  | none =>
    simp only [hb, Option.some.injEq] at hs
    subst hs
    have hle := List.getElem?_eq_none_iff.mp hb
    rw [List.drop_eq_nil_of_le hle] at hL
    exact h.of_commit (by simp [hm]) (by simp [Mode.booting]) ⟨L, hL, by simp [Mode.pins]⟩
      ⟨kept, hkept, hrec⟩ hret
      ⟨hread, hpc, fun i b (hi : i < m.st.log.block.length) => hinst i b (by omega)⟩

theorem readEntries_fillHead_nil (d : Block) : readEntries (fillHead d []) = [] :=
  readEntries_fillHead d [] (by simp) (by simp)

theorem commit_clear (h : MachineInv start size d₀ m) (hm : m.mode = .clear p)
    {m' : Machine P} (hs : m.commit start = some m') : MachineInv start size d₀ m' := by
  obtain ⟨L, hL, hlog⟩ := h.cache
  obtain ⟨kept, hkept, hrec⟩ := h.disk
  obtain ⟨hread, hpc, hinst⟩ : _ ∧ _ ∧ _ := by simpa only [Machine.Phase, hm] using h.phase
  have hfits := h.fits
  simp only [Machine.durable, hm, Mode.pins] at hL hlog hrec
  simp only [Machine.commit, hm, Option.map_eq_some_iff] at hs
  obtain ⟨c', hw, rfl⟩ := hs
  obtain ⟨hc', hd⟩ := hL.writeHead hw
  refine ⟨h.proto.of_step (.clear hpc), h.area, ⟨_, hc', by simp [Mode.pins]⟩,
    fun i hi => absurd hi (by simp [h.clean (by simp [hm]) i]), by simp [St.clear], ?_,
    by simp [Mode.booting], ⟨kept, hkept, ?_⟩, le_refl _, ?_, hpc, rfl⟩
  · simp only [St.clear, List.length_nil]
    omega
  · simp only [hd]
    exact hrec.clear (by rw [hread]; exact hinst) (readEntries_fillHead_nil _)
  · rw [hd, update_self, readEntries_fillHead_nil]

theorem commit_done (h : MachineInv start size d₀ m) (hm : m.mode = .done p)
    {m' : Machine P} (hs : m.commit start = some m') : MachineInv start size d₀ m' := by
  obtain ⟨L, hL, hlog⟩ := h.cache
  obtain ⟨kept, hkept, hrec⟩ := h.disk
  obtain ⟨hread, hpc, hnil⟩ : _ ∧ _ ∧ _ := by simpa only [Machine.Phase, hm] using h.phase
  have hret := h.returned
  simp only [Machine.durable, hm, Mode.pins] at hL hrec hret
  simp only [Machine.commit, hm, Option.some.injEq] at hs
  subst hs
  refine ⟨h.proto.of_step (.finish hpc hnil), h.area, ⟨L, ?_, ?_⟩,
    fun i hi => absurd hi (by simp [h.clean (by simp [hm]) i]), h.block, h.fits,
    by simp [Mode.booting], ⟨kept, hkept, hrec⟩, hret, hread⟩
  · simpa [Mode.pins, St.endCommit, endCommit, hnil] using hL
  · simp [Mode.pins, St.endCommit, endCommit, hnil]

theorem commit (h : MachineInv start size d₀ m) {m' : Machine P} (hs : m.commit start = some m') :
    MachineInv start size d₀ m' := by
  cases hm : m.mode with
  | writeLog p tail => exact h.commit_writeLog hm hs
  | writeHead p => exact h.commit_writeHead hm hs
  | install p tail => exact h.commit_install hm hs
  | clear p => exact h.commit_clear hm hs
  | done p => exact h.commit_done hm hs
  | _ => simp [Machine.commit, hm] at hs

theorem of_setBlock (h : MachineInv start size d₀ m) (hm : m.mode.booting = true) {block : List ℕ}
    {c' : Bcache P} {mode : Mode P} (hn : block.Nodup)
    (hb : ∀ b ∈ block, ¬ InLog start size b ∧ b < 2 ^ 32)
    (hf : block.length + 1 ≤ size ∧ block.length ≤ logSize)
    (hc : ∃ L, CacheInv c' (mode.pins block) (waits m.want) m.dirty L ∧
      ∀ b ∈ mode.pins block, L b = m.logged b)
    (hr : ∃ kept, List.Forall₂ Kept m.past kept ∧ Recoverable start size c'.disk d₀ kept.flatten.flatten)
    (hp : Machine.Phase start { m.setBlock block with c := c', mode := mode }) :
    MachineInv start size d₀ { m.setBlock block with c := c', mode := mode } := by
  obtain ⟨hout, hcur⟩ := h.booting hm
  have hrun : m.mode ≠ .running := by
    rintro he
    simp [he, Mode.booting] at hm
  have hd : Machine.durable { m.setBlock block with c := c', mode := mode } = [] := by
    unfold Machine.durable
    cases mode <;> simp [Machine.setBlock, hcur]
  refine ⟨?_, h.area, hc, fun i hi => absurd hi (by simp [Machine.setBlock, h.clean hrun i]), hb, hf,
    fun _ => ⟨hout, hcur⟩, ?_, ?_, hp⟩
  · refine ⟨h.proto.outstanding, h.proto.committing, h.proto.quiet, hn, fun q => ?_, h.proto.sane⟩
    have hq : (m.st.pc q).logged = [] := by
      cases hpc : m.st.pc q with
      | active l =>
        have := h.proto.active_pos hpc
        omega
      | _ => rfl
    simp [Machine.setBlock, hq]
  · simp only [hd, List.append_nil]
    exact hr
  · simp [Machine.setBlock, hcur]

theorem readEntries_lt {d : Block} {b : ℕ} (h : b ∈ readEntries d) : b < 2 ^ 32 := by
  obtain ⟨i, -, rfl⟩ := List.mem_map.mp h
  exact Lib.Bytes.le_lt _ _ _

theorem recover (h : MachineInv start size d₀ m) {m' : Machine P}
    (hs : m.recover p start = some m') : MachineInv start size d₀ m' := by
  obtain ⟨L, hL, hlog⟩ := h.cache
  obtain ⟨kept, hkept, hrec⟩ := h.disk
  have hfits := h.fits
  cases hm : m.mode with
  | readHead =>
    simp only [Machine.recover, hm, Option.map_eq_some_iff] at hs
    obtain ⟨⟨c', block⟩, hr, rfl⟩ := hs
    have hcur := (h.booting (by rw [hm]; rfl)).2
    simp only [Machine.durable, hm, Mode.pins, hcur, List.append_nil] at hL hrec
    obtain ⟨hc', hd, hblock⟩ := hL.readHead hr
    rw [hL.home start (by simp)] at hblock
    subst hblock
    refine h.of_setBlock (by rw [hm]; rfl) hrec.nodup
      (fun b hb => ⟨hrec.home b hb, readEntries_lt hb⟩) hrec.fits ⟨L, hc', by simp [Mode.pins]⟩
      ⟨kept, hkept, by rwa [hd]⟩ ⟨?_, fun i b hi => by omega⟩
    simp only [hd, Machine.setBlock]
  | reinstall tail =>
    obtain ⟨hread, hinst⟩ : _ ∧ _ := by simpa only [Machine.Phase, hm] using h.phase
    have hret := h.returned
    simp only [Machine.durable, hm, Mode.pins] at hL hrec hret
    simp only [Machine.recover, hm] at hs
    cases hb : m.st.log.block[tail]? with
    | some b =>
      simp only [hb, Option.map_eq_some_iff] at hs
      obtain ⟨c', hw, rfl⟩ := hs
      have hlt := (List.getElem?_eq_some_iff.mp hb).1
      have hb' : (readEntries (m.c.disk start))[tail]? = some b := by rw [hread, hb]
      obtain ⟨hc', hd⟩ :=
        hL.installTrans_recovering (h.home (List.mem_of_getElem? hb) (by omega)) hw
      rw [hL.home _ (by simp)] at hd
      refine h.of_commit (by simp [hm]) (by simp [hm, Mode.booting]) ⟨_, hc', by simp [Mode.pins]⟩
        ⟨kept, hkept, ?_⟩ hret ⟨?_, ?_⟩
      · rw [hd]
        exact hrec.install (List.mem_of_getElem? hb') _
      · rw [hd, update_of_ne (hrec.not_mem_area (List.mem_of_getElem? hb')).1, hread]
      · simp only [hd]
        exact hrec.installed_succ hinst hb'
    | none =>
      simp only [hb, Option.some.injEq] at hs
      subst hs
      have hle := List.getElem?_eq_none_iff.mp hb
      exact h.of_commit (by simp [hm]) (by simp [hm, Mode.booting]) ⟨L, hL, by simp [Mode.pins]⟩
        ⟨kept, hkept, hrec⟩ hret
        ⟨hread, fun i b (hi : i < m.st.log.block.length) => hinst i b (by omega)⟩
  | reclear =>
    obtain ⟨hread, hinst⟩ : _ ∧ _ := by simpa only [Machine.Phase, hm] using h.phase
    simp only [Machine.recover, hm, Option.map_eq_some_iff] at hs
    obtain ⟨c', hw, rfl⟩ := hs
    have hcur := (h.booting (by rw [hm]; rfl)).2
    simp only [Machine.durable, hm, Mode.pins, hcur, List.append_nil] at hL hrec
    obtain ⟨hc', hd⟩ := hL.writeHead hw
    refine h.of_setBlock (by rw [hm]; rfl) List.nodup_nil (by simp) ?_ ⟨_, hc', by simp [Mode.pins]⟩
      ⟨kept, hkept, ?_⟩ ?_
    · simp only [List.length_nil]
      omega
    · rw [hd]
      exact hrec.clear (by rw [hread]; exact hinst) (readEntries_fillHead_nil _)
    · change readEntries (c'.disk start) = []
      rw [hd, update_self, readEntries_fillHead_nil]
  | _ => simp [Machine.recover, hm] at hs

theorem of_boot {disk : ℕ → Block} {past : List Epoch} {kept : List (List Txn)} (hs : 0 < size)
    (hk : List.Forall₂ Kept past kept) (hr : Recoverable start size disk d₀ kept.flatten.flatten) :
    MachineInv start size d₀ (boot P start size disk past) where
  proto := Inv.init start size
  area := rfl
  cache := by
    refine ⟨disk, ?_, by simp [boot, Mode.pins]⟩
    have hw : waits (fun _ : P => none) = fun _ => 0 := by
      funext i
      simp [waits]
    simpa only [boot, Mode.pins, hw] using CacheInv.binit disk
  dirty := by simp [boot]
  block := by simp [boot, init, initlog]
  fits := ⟨by simp only [boot, init, initlog, List.length_nil]; omega, by simp [boot, init, initlog]⟩
  booting _ := ⟨rfl, rfl⟩
  disk := ⟨kept, hk, by simpa [Machine.durable, boot, binit] using hr⟩
  returned := by simp [boot]
  phase := trivial

theorem crash (h : MachineInv start size d₀ m) :
    MachineInv start size d₀ (boot P start size m.c.disk (m.past ++ [m.cur])) := by
  obtain ⟨kept, hkept, hrec⟩ := h.disk
  have hfits := h.fits
  have hd : m.durable <+: m.cur.txns := by
    unfold Machine.durable
    split
    · exact List.dropLast_prefix _
    · exact List.dropLast_prefix _
    · exact List.prefix_rfl
  have hall := List.rel_append hkept (.cons ⟨hd, h.returned⟩ (.nil (R := Kept)))
  exact of_boot (by omega) hall (by simpa using hrec)

theorem userStep (h : MachineInv start size d₀ m) (hm : m.mode.booting = false) {a : Act P}
    {m' : Machine P} (hs : m.userStep start size a = some m') : MachineInv start size d₀ m' := by
  cases a with
  | begin p =>
    simp only [Machine.userStep] at hs
    split_ifs at hs
    obtain ⟨st, hst, rfl⟩ := Option.map_eq_some_iff.mp hs
    exact h.begin hm hst
  | bget p b =>
    simp only [Machine.userStep] at hs
    split_ifs at hs with hf
    exact h.bget hf.1 hs
  | acquire p => exact h.acquire hs
  | modify p i d =>
    simp only [Machine.userStep] at hs
    split_ifs at hs with hg
    cases hs
    exact h.modify hg.2.1 hg.2.2.1 d
  | logWrite p i =>
    simp only [Machine.userStep] at hs
    split_ifs at hs with hg
    cases hs
    exact h.logWrite hg.2.1 hg.2.2.1 hg.2.2.2.1 hg.2.2.2.2
  | brelse p i =>
    simp only [Machine.userStep] at hs
    split_ifs at hs with hg
    cases hs
    exact h.brelse hg.2.1 hg.2.2
  | endOp p =>
    simp only [Machine.userStep] at hs
    split_ifs at hs with hg
    cases hs
    exact h.endOp hg.2.1 hg.2.2
  | commit => cases hs
  | recover p => cases hs
  | crash => cases hs

theorem of_step (h : MachineInv start size d₀ m) {a : Act P} {m' : Machine P}
    (hs : machineStep start size m a = some m') : MachineInv start size d₀ m' := by
  cases a with
  | crash =>
    cases hs
    exact h.crash
  | recover p =>
    simp only [machineStep] at hs
    split_ifs at hs
    exact h.recover hs
  | commit =>
    simp only [machineStep] at hs
    split_ifs at hs
    exact h.commit hs
  | _ =>
    simp only [machineStep] at hs
    split_ifs at hs with hp hb
    exact h.userStep (by simpa using hb) hs

theorem of_run (hs : 0 < size) (hd : readEntries (d₀ start) = []) {C : Machine P → Act P → Prop}
    (h : Run (machineStep start size) C (boot P start size d₀ []) m) : MachineInv start size d₀ m := by
  refine h.invariant (of_boot hs .nil (.of_nil hd hs (fun _ _ => rfl))) ?_
  intro s a t hi _ ht
  exact hi.of_step ht

end MachineInv

theorem recover_booting {m m' : Machine P} {p : P} {start : ℕ} (h : m.recover p start = some m') :
    m.mode.booting = true ∧ m'.cur = m.cur := by
  unfold Machine.recover at h
  split at h
  · obtain ⟨r, -, rfl⟩ := Option.map_eq_some_iff.mp h
    exact ⟨by simp [*, Mode.booting], rfl⟩
  · refine ⟨by simp [*, Mode.booting], ?_⟩
    split at h
    · obtain ⟨c, -, rfl⟩ := Option.map_eq_some_iff.mp h
      rfl
    · cases h
      rfl
  · obtain ⟨c, -, rfl⟩ := Option.map_eq_some_iff.mp h
    exact ⟨by simp [*, Mode.booting], rfl⟩
  · cases h

/-- Whenever `recover_from_log` finishes, the blocks outside the log hold what some first transactions of every boot made of them,
among them all whose `commit` had returned. -/
theorem recovered_disk_eq_replay {start size : ℕ} {d₀ : ℕ → Block} {m m' : Machine P} {p : P}
    (hsize : 0 < size) (hempty : readEntries (d₀ start) = [])
    (hrun : Run (machineStep start size) (fun _ _ => True) (boot P start size d₀ []) m)
    (hrecover : machineStep start size m (.recover p) = some m') (hdone : m'.mode = .running) :
    ∃ kept : List (List Txn),
      List.Forall₂ (fun e k => k <+: e.txns ∧ e.returned ≤ k.length) m'.past kept ∧
      ∀ b, ¬ InLog start size b → m'.c.disk b = replay kept.flatten.flatten d₀ b := by
  have h := MachineInv.of_run hsize hempty (hrun.tail trivial hrecover)
  obtain ⟨kept, hkept, hrec⟩ := h.disk
  have hphase := h.phase
  simp only [Machine.Phase, hdone] at hphase
  have hcur : m'.cur.txns = [] := by
    simp only [machineStep] at hrecover
    split_ifs at hrecover
    obtain ⟨hboot, hcur⟩ := recover_booting hrecover
    rw [hcur, ((MachineInv.of_run hsize hempty hrun).booting hboot).2]
  refine ⟨kept, hkept, fun b hb => ?_⟩
  have := hrec.disk_eq hphase b hb
  simpa [Machine.durable, hdone, hcur] using this

def secondBuf : Fin nBuf := ⟨1, by decide⟩

def crashInCommit : List (Act Unit) :=
  [.recover (), .recover (), .recover (), .begin (), .bget () 100, .acquire (),
    .modify () secondBuf (fun _ => 7), .logWrite () secondBuf, .brelse () secondBuf, .endOp (),
    .commit, .commit, .commit, .crash, .recover (), .recover (), .recover ()]

def crashed : Option (Machine Unit) :=
  execute (machineStep 2 nlog) (fun _ _ => True) (boot Unit 2 nlog (fun _ _ => 0) []) crashInCommit

theorem recovered_after_crashInCommit :
    ∃ m m' : Machine Unit, crashed = some m ∧ machineStep 2 nlog m (.recover ()) = some m' ∧
      ∃ kept : List (List Txn),
        List.Forall₂ (fun e k => k <+: e.txns ∧ e.returned ≤ k.length) m'.past kept ∧
        ∀ b, ¬ InLog 2 nlog b → m'.c.disk b = replay kept.flatten.flatten (fun _ _ => 0) b := by
  have hsome : (crashed.bind (fun m => machineStep 2 nlog m (.recover ()))).isSome = true := by
    decide +kernel
  obtain ⟨m', hm'⟩ := Option.isSome_iff_exists.mp hsome
  obtain ⟨m, hm, hstep⟩ := Option.bind_eq_some_iff.mp hm'
  have hmode : (crashed.bind (fun m => machineStep 2 nlog m (.recover ()))).map Machine.mode =
      some .running := by
    decide +kernel
  rw [hm', Option.map_some, Option.some.injEq] at hmode
  exact ⟨m, m', hm, hstep, recovered_disk_eq_replay (by decide) (by decide) (run_of_execute hm) hstep hmode⟩

end Xv6.Logging
