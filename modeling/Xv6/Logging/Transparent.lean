import Xv6.Logging.Crash

set_option linter.unusedSectionVars false

namespace Xv6.Logging

open Lib.Transition
open Function (update update_of_ne update_self)

namespace Bcache

variable {P : Type} {c c' c₁ c₂ : Bcache P} {b : ℕ} {i j : Fin nBuf} {p : P}

def tag (c : Bcache P) (i : Fin nBuf) : ℕ × ℕ := ((c.buf i).dev, (c.buf i).blockno)

structure Retags (c c' : Bcache P) : Prop where
  kept : ∀ j, 0 < (c.buf j).refcnt → c'.tag j = c.tag j
  dev : ∀ j, (c'.buf j).dev = (c.buf j).dev ∨ (c'.buf j).dev = rootDev

theorem Retags.of_tag (h : ∀ j, c'.tag j = c.tag j) : Retags c c' :=
  ⟨fun j _ => h j, fun j => Or.inl (Prod.mk.inj (h j)).1⟩

theorem Retags.trans_tag (h : Retags c c₁) (h' : ∀ j, c₂.tag j = c₁.tag j) : Retags c c₂ := by
  refine ⟨fun j hj => (h' j).trans (h.kept j hj), fun j => ?_⟩
  rw [(Prod.mk.inj (h' j)).1]
  exact h.dev j

theorem Retags.trans (h : Retags c c₁) (hr : ∀ j, 0 < (c.buf j).refcnt → 0 < (c₁.buf j).refcnt) (h' : Retags c₁ c₂) :
    Retags c c₂ := by
  refine ⟨fun j hj => (h'.kept j (hr j hj)).trans (h.kept j hj), fun j => ?_⟩
  rcases h'.dev j with hd | hd
  · rw [hd]
    exact h.dev j
  · exact Or.inr hd

theorem tag_set {x : Buf P} (hd : x.dev = (c.buf i).dev) (hb : x.blockno = (c.buf i).blockno) (j : Fin nBuf) :
    (c.set i x).tag j = c.tag j := by
  by_cases hj : j = i
  · subst hj
    simp only [tag, set_buf_self, hd, hb]
  · simp only [tag, set_buf_of_ne hj]

theorem tag_write {d : Block} (j : Fin nBuf) : ((c.setData i d).bwrite i).tag j = c.tag j :=
  tag_set (x := { c.buf i with data := d }) rfl rfl j

theorem tag_bpin (j : Fin nBuf) : (c.bpin i).tag j = c.tag j :=
  tag_set (x := { c.buf i with refcnt := (c.buf i).refcnt + 1 }) rfl rfl j

theorem tag_bunpin (j : Fin nBuf) : (c.bunpin i).tag j = c.tag j :=
  tag_set (x := { c.buf i with refcnt := (c.buf i).refcnt - 1 }) rfl rfl j

theorem tag_brelse (j : Fin nBuf) : (c.brelse i).tag j = c.tag j := by
  have hset := tag_set (c := c) (i := i) (x := { c.buf i with lock := none, refcnt := (c.buf i).refcnt - 1 }) rfl rfl j
  unfold brelse
  dsimp only
  split_ifs
  · exact hset
  · exact hset

theorem refcnt_set {x : Buf P} (hx : 0 < (c.buf i).refcnt → 0 < x.refcnt) (j : Fin nBuf) (hj : 0 < (c.buf j).refcnt) :
    0 < ((c.set i x).buf j).refcnt := by
  by_cases hji : j = i
  · subst hji
    rw [set_buf_self]
    exact hx hj
  · rwa [set_buf_of_ne hji]

theorem bget_retags (h : c.bget b = some (c', i)) :
    Retags c c' ∧ ∀ j, 0 < (c.buf j).refcnt → 0 < (c'.buf j).refcnt := by
  unfold bget at h
  split at h
  · cases h
    exact ⟨.of_tag (tag_set rfl rfl), refcnt_set (fun _ => Nat.succ_pos _)⟩
  · split at h
    · rename_i k hk
      cases h
      have hr : (c.buf i).refcnt = 0 := by simpa using List.find?_some hk
      refine ⟨⟨fun j hj => ?_, fun j => ?_⟩, refcnt_set (fun _ => Nat.one_pos)⟩
      · have hji : j ≠ i := by
          rintro rfl
          omega
        simp only [tag, set_buf_of_ne hji]
      · by_cases hji : j = i
        · subst hji
          exact Or.inr (by rw [set_buf_self])
        · exact Or.inl (by rw [set_buf_of_ne hji])
    · cases h

theorem acquire_tag (h : c.acquire p i = some c') (j : Fin nBuf) :
    c'.tag j = c.tag j ∧ (c'.buf j).refcnt = (c.buf j).refcnt := by
  unfold acquire at h
  by_cases hji : j = i
  · subst hji
    split_ifs at h <;> cases h <;> simp only [tag, set_buf_self, and_self]
  · split_ifs at h <;> cases h <;> simp only [tag, set_buf_of_ne hji, and_self]

theorem bread_retags (h : c.bread p b = some (c', i)) :
    Retags c c' ∧ ∀ j, 0 < (c.buf j).refcnt → 0 < (c'.buf j).refcnt := by
  obtain ⟨⟨c₁, k⟩, hg, hm⟩ := Option.bind_eq_some_iff.mp h
  obtain ⟨c₂, ha, he⟩ := Option.map_eq_some_iff.mp hm
  obtain ⟨rfl, rfl⟩ := Prod.mk.inj he
  obtain ⟨hr, hpos⟩ := bget_retags hg
  refine ⟨hr.trans_tag (fun j => (acquire_tag ha j).1), fun j hj => ?_⟩
  rw [(acquire_tag ha j).2]
  exact hpos j hj

theorem writeLog_retags {start tail : ℕ} (h : c.writeLog p start tail b = some c') : Retags c c' := by
  simp only [writeLog, Option.bind_eq_bind, Option.bind_eq_some_iff, Option.pure_def, Option.some.injEq, Prod.exists] at h
  obtain ⟨c₁, i, h₁, c₂, j, h₂, rfl⟩ := h
  obtain ⟨hr₁, hp₁⟩ := bread_retags h₁
  refine (hr₁.trans hp₁ (bread_retags h₂).1).trans_tag (fun k => ?_)
  rw [tag_brelse, tag_brelse, tag_write]

theorem installTrans_retags {start tail : ℕ} {recovering : Bool} (h : c.installTrans p recovering start tail b = some c') :
    Retags c c' := by
  simp only [installTrans, Option.bind_eq_bind, Option.bind_eq_some_iff, Option.pure_def, Option.some.injEq, Prod.exists] at h
  obtain ⟨c₁, i, h₁, c₂, j, h₂, rfl⟩ := h
  obtain ⟨hr₁, hp₁⟩ := bread_retags h₁
  refine (hr₁.trans hp₁ (bread_retags h₂).1).trans_tag (fun k => ?_)
  rw [tag_brelse, tag_brelse]
  split_ifs
  · rw [tag_write]
  · rw [tag_bunpin, tag_write]

theorem writeHead_retags {start : ℕ} {block : List ℕ} (h : c.writeHead p start block = some c') : Retags c c' := by
  simp only [writeHead, Option.bind_eq_bind, Option.bind_eq_some_iff, Option.pure_def, Option.some.injEq, Prod.exists] at h
  obtain ⟨c₁, i, h₁, rfl⟩ := h
  refine (bread_retags h₁).1.trans_tag (fun k => ?_)
  rw [tag_brelse, tag_write]

theorem readHead_retags {start : ℕ} {block : List ℕ} (h : c.readHead p start = some (c', block)) : Retags c c' := by
  simp only [readHead, Option.bind_eq_bind, Option.bind_eq_some_iff, Option.pure_def, Option.some.injEq, Prod.exists,
    Prod.mk.injEq] at h
  obtain ⟨c₁, i, h₁, rfl, -⟩ := h
  exact (bread_retags h₁).1.trans_tag (fun k => tag_brelse k)

end Bcache

variable {P : Type} [DecidableEq P] [Fintype P] {start size : ℕ} {m m' : Machine P} {p : P} {a : Act P}

open Bcache (Retags)

theorem Machine.logWrite_retags (l : List ℕ) (i : Fin nBuf) : Retags m.c (m.logWrite p l i).c := by
  unfold Machine.logWrite
  dsimp only
  split
  · exact .of_tag (fun _ => rfl)
  · apply Retags.of_tag
    intro j
    dsimp only
    split_ifs
    · exact Bcache.tag_bpin j
    · rfl

theorem Machine.commit_retags (h : m.commit start = some m') : Retags m.c m'.c := by
  unfold Machine.commit at h
  split at h
  · split at h
    · obtain ⟨c', hc, rfl⟩ := Option.map_eq_some_iff.mp h
      exact Bcache.writeLog_retags hc
    · cases h
      exact .of_tag (fun _ => rfl)
  · obtain ⟨c', hc, rfl⟩ := Option.map_eq_some_iff.mp h
    exact Bcache.writeHead_retags hc
  · split at h
    · obtain ⟨c', hc, rfl⟩ := Option.map_eq_some_iff.mp h
      exact Bcache.installTrans_retags hc
    · cases h
      exact .of_tag (fun _ => rfl)
  · obtain ⟨c', hc, rfl⟩ := Option.map_eq_some_iff.mp h
    exact Bcache.writeHead_retags hc
  · cases h
    exact .of_tag (fun _ => rfl)
  · cases h

theorem Machine.recover_retags (h : m.recover p start = some m') : Retags m.c m'.c := by
  unfold Machine.recover at h
  split at h
  · obtain ⟨⟨c', block⟩, hc, rfl⟩ := Option.map_eq_some_iff.mp h
    exact Bcache.readHead_retags hc
  · split at h
    · obtain ⟨c', hc, rfl⟩ := Option.map_eq_some_iff.mp h
      exact Bcache.installTrans_retags hc
    · cases h
      exact .of_tag (fun _ => rfl)
  · obtain ⟨c', hc, rfl⟩ := Option.map_eq_some_iff.mp h
    exact Bcache.writeHead_retags hc
  · cases h

theorem Machine.userStep_retags (h : m.userStep start size a = some m') : Retags m.c m'.c := by
  cases a with
  | begin p =>
    simp only [Machine.userStep] at h
    split_ifs at h
    obtain ⟨st, -, rfl⟩ := Option.map_eq_some_iff.mp h
    exact .of_tag (fun _ => rfl)
  | bget p b =>
    simp only [Machine.userStep] at h
    split_ifs at h
    obtain ⟨⟨c', i⟩, hb, rfl⟩ := Option.map_eq_some_iff.mp h
    exact (Bcache.bget_retags hb).1
  | acquire p =>
    obtain ⟨i, -, h⟩ := Option.bind_eq_some_iff.mp h
    obtain ⟨c', hb, rfl⟩ := Option.map_eq_some_iff.mp h
    exact .of_tag (fun j => (Bcache.acquire_tag hb j).1)
  | modify p i d =>
    simp only [Machine.userStep] at h
    split_ifs at h
    cases h
    exact .of_tag (fun j => Bcache.tag_write (c := m.c) j)
  | logWrite p i =>
    simp only [Machine.userStep] at h
    split_ifs at h
    cases h
    exact Machine.logWrite_retags _ _
  | brelse p i =>
    simp only [Machine.userStep] at h
    split_ifs at h
    cases h
    exact .of_tag (fun j => Bcache.tag_brelse j)
  | endOp p =>
    simp only [Machine.userStep] at h
    split_ifs at h
    cases h
    apply Retags.of_tag
    intro j
    unfold Machine.endOp
    dsimp only
    split_ifs <;> rfl
  | commit | recover p | crash => cases h

theorem machineStep_retags (ha : a ≠ .crash) (h : machineStep start size m a = some m') : Retags m.c m'.c := by
  cases a with
  | crash => exact absurd rfl ha
  | recover p =>
    simp only [machineStep] at h
    split_ifs at h
    exact Machine.recover_retags h
  | commit =>
    simp only [machineStep] at h
    split_ifs at h
    exact Machine.commit_retags h
  | _ =>
    simp only [machineStep] at h
    split_ifs at h
    exact Machine.userStep_retags h

structure Watch (P : Type) where
  m : Machine P
  last : ℕ → Option Block
  asked : P → ℕ

def Watch.boot (P : Type) (start size : ℕ) (disk : ℕ → Block) : Watch P :=
  ⟨Logging.boot P start size disk [], fun _ => none, fun _ => 0⟩

def Machine.lastWrites (m : Machine P) (last : ℕ → Option Block) : Act P → ℕ → Option Block
  | .crash => fun _ => none
  | .logWrite _ i =>
    match Logging.logWrite m.st.log (m.c.buf i).blockno with
    | .ok _ => update last (m.c.buf i).blockno (some (m.c.buf i).data)
    | .error _ => last
  | _ => last

def Watch.step (start size : ℕ) (w : Watch P) (a : Act P) : Option (Watch P) :=
  (machineStep start size w.m a).map (fun m => {
    m := m
    last := w.m.lastWrites w.last a
    asked := match a with
      | .bget p b => update w.asked p b
      | _ => w.asked })

def Machine.pins (m : Machine P) : List ℕ := m.mode.pins m.st.log.block

structure Recorded (start size : ℕ) (m : Machine P) (last : ℕ → Option Block) : Prop where
  home : ∀ b, last b ≠ none → ¬ InLog start size b
  pinned : ∀ b ∈ m.pins, last b = some (m.logged b)
  settled : ∀ b d, last b = some d → b ∉ m.pins → m.c.disk b = d
  copied : ∀ p tail, m.mode = .install p tail →
    Copied start m.c.disk m.st.log.block m.logged m.st.log.block.length
  booting : m.mode.booting = true → ∀ b, last b = none

namespace Recorded

variable {last : ℕ → Option Block} {d₀ : ℕ → Block}

theorem content (h : Recorded start size m last) {wait : Fin nBuf → ℕ} {L : ℕ → Block}
    (hL : CacheInv m.c m.pins wait m.dirty L) (hlog : ∀ b ∈ m.pins, L b = m.logged b) (b : ℕ) :
    L b = (last b).getD (m.c.disk b) := by
  by_cases hb : b ∈ m.pins
  · rw [h.pinned b hb, hlog b hb]
    rfl
  · rw [hL.home b hb]
    cases hl : last b with
    | none => rfl
    | some d => exact h.settled b d hl hb

theorem of_same (h : Recorded start size m last) (hd : m'.c.disk = m.c.disk) (hl : m'.logged = m.logged)
    (hp : m'.pins = m.pins) (hb : m'.mode.booting = true → m.mode.booting = true)
    (hi : ∀ p tail, m'.mode = .install p tail → m.mode = .install p tail ∧ m'.st.log.block = m.st.log.block) :
    Recorded start size m' last := by
  refine ⟨h.home, ?_, ?_, ?_, fun hm => h.booting (hb hm)⟩
  · rw [hp, hl]
    exact h.pinned
  · rw [hp, hd]
    exact h.settled
  · intro p tail hm
    obtain ⟨hm', hblock⟩ := hi p tail hm
    rw [hd, hl, hblock]
    exact h.copied p tail hm'

theorem endOp (h : Recorded start size m last) (hm : m.mode = .running) : Recorded start size (m.endOp p) last := by
  have hblock : (m.st.endOp p).log.block = m.st.log.block := by
    unfold St.endOp Logging.endOp
    dsimp only
    split_ifs <;> rfl
  unfold Machine.endOp
  dsimp only
  split_ifs with hc hn
  · refine h.of_same rfl rfl ?_ ?_ ?_
    · simp only [Machine.pins, hm, Mode.pins, hblock]
    · intros
      contradiction
    · intros
      contradiction
  · have hnil : (m.st.endOp p).log.block = [] := by simpa [Log.n] using hn
    refine h.of_same rfl rfl ?_ ?_ ?_
    · simp only [Machine.pins, hm, Mode.pins, ← hblock, hnil]
    · intros
      contradiction
    · intros
      contradiction
  · refine h.of_same rfl rfl ?_ ?_ ?_
    · simp only [Machine.pins, hblock]
    · exact id
    · exact fun p tail he => ⟨he, hblock⟩

theorem logWrite (h : Recorded start size m last) (hm : m.mode = .running) {l : List ℕ} {i : Fin nBuf}
    (hb : ¬ InLog start size (m.c.buf i).blockno) :
    Recorded start size (m.logWrite p l i) (m.lastWrites last (.logWrite p i)) := by
  have hp : m.pins = m.st.log.block := by simp only [Machine.pins, hm, Mode.pins]
  -- a block given to `log_write` is pinned from then on, with its new data
  have hadd : ∀ block : List ℕ, (∀ b, b ∈ block ↔ b = (m.c.buf i).blockno ∨ b ∈ m.st.log.block) →
      ∀ m' : Machine P, m'.mode = .running → m'.st.log.block = block → m'.c.disk = m.c.disk →
        m'.logged = update m.logged (m.c.buf i).blockno (m.c.buf i).data →
        Recorded start size m' (update last (m.c.buf i).blockno (some (m.c.buf i).data)) := by
    intro block hblock m' hm' hbl hd hl
    have hp' : ∀ b, b ∈ m'.pins ↔ b = (m.c.buf i).blockno ∨ b ∈ m.pins := by
      intro b
      rw [hp, ← hblock b]
      simp only [Machine.pins, hm', Mode.pins, hbl]
    constructor
    · intro b hlast
      by_cases hbi : b = (m.c.buf i).blockno
      · rw [hbi]
        exact hb
      · rw [update_of_ne hbi] at hlast
        exact h.home b hlast
    · intro b hmem
      rw [hl]
      by_cases hbi : b = (m.c.buf i).blockno
      · rw [hbi, update_self, update_self]
      · rw [update_of_ne hbi, update_of_ne hbi]
        exact h.pinned b (((hp' b).mp hmem).resolve_left hbi)
    · intro b d hlast hmem
      rw [hp', not_or] at hmem
      rw [update_of_ne hmem.1] at hlast
      rw [hd]
      exact h.settled b d hlast hmem.2
    · rw [hm']
      intros
      contradiction
    · rw [hm']
      intros
      contradiction
  unfold Machine.logWrite Machine.lastWrites Logging.logWrite
  dsimp only
  split_ifs with hn ho hmem
  · exact h.of_same rfl rfl rfl id (fun _ _ he => ⟨he, rfl⟩)
  · exact h.of_same rfl rfl rfl id (fun _ _ he => ⟨he, rfl⟩)
  · refine hadd m.st.log.block (fun b => ?_) _ hm rfl rfl rfl
    exact ⟨Or.inr, fun hb => hb.elim (fun he => he ▸ hmem) id⟩
  · refine hadd (m.st.log.block ++ [(m.c.buf i).blockno]) (fun b => ?_) _ hm rfl rfl rfl
    rw [List.mem_append, List.mem_singleton, or_comm]

theorem write_log (h : Recorded start size m last) {b : ℕ} {d : Block} (hb : InLog start size b)
    (hd : m'.c.disk = update m.c.disk b d) (hl : m'.logged = m.logged) (hp : m'.pins = m.pins)
    (hi : ∀ p tail, m'.mode = .install p tail →
      Copied start m'.c.disk m'.st.log.block m'.logged m'.st.log.block.length) (hbt : m'.mode.booting = false) :
    Recorded start size m' last := by
  refine ⟨h.home, ?_, ?_, hi, by rw [hbt]; exact nofun⟩
  · rw [hp, hl]
    exact h.pinned
  · intro x d hlast hx
    have hxb : x ≠ b := by
      rintro rfl
      exact h.home x (by rw [hlast]; exact nofun) hb
    rw [hp] at hx
    rw [hd, update_of_ne hxb]
    exact h.settled x d hlast hx

theorem commit (h : Recorded start size m last) (hi : MachineInv start size d₀ m) (hs : m.commit start = some m') :
    Recorded start size m' last := by
  obtain ⟨L, hL, hlog⟩ := hi.cache
  have hfits := hi.fits
  have hphase := hi.phase
  cases hm : m.mode with
  | writeLog p tail =>
    simp only [Machine.commit, hm] at hs
    cases hb : m.st.log.block[tail]? with
    | some b =>
      simp only [hb, Option.map_eq_some_iff] at hs
      obtain ⟨c', hw, rfl⟩ := hs
      have hmem := List.mem_of_getElem? hb
      have hlt := (List.getElem?_eq_some_iff.mp hb).1
      have hd := (hL.writeLog (hi.home hmem (by omega)) hw).2
      refine h.write_log (b := start + tail + 1) ⟨by omega, by omega⟩ hd rfl ?_ ?_ rfl
      · simp only [Machine.pins, hm, Mode.pins]
      · intros
        contradiction
    | none =>
      simp only [hb, Option.some.injEq] at hs
      subst hs
      refine h.of_same rfl rfl ?_ ?_ ?_
      · simp only [Machine.pins, hm, Mode.pins]
      · intros
        contradiction
      · intros
        contradiction
  | writeHead p =>
    simp only [Machine.commit, hm, Option.map_eq_some_iff] at hs
    obtain ⟨c', hw, rfl⟩ := hs
    have hd := (hL.writeHead hw).2
    obtain ⟨-, -, hcopy, -⟩ : _ ∧ _ ∧ _ ∧ _ := by simpa only [Machine.Phase, hm] using hphase
    refine h.write_log (b := start) ⟨Nat.le_refl _, by omega⟩ hd rfl ?_ ?_ rfl
    · simp only [Machine.pins, hm, Mode.pins, List.drop_zero]
    · intro q tail _ i x hlt hx
      simp only [hd]
      rw [update_of_ne (by omega)]
      exact hcopy i x hlt hx
  | install p tail =>
    have hcopy := h.copied p tail hm
    simp only [Machine.commit, hm] at hs
    cases hb : m.st.log.block[tail]? with
    | some b =>
      simp only [hb, Option.map_eq_some_iff] at hs
      obtain ⟨c', hw, rfl⟩ := hs
      have hmem := List.mem_of_getElem? hb
      obtain ⟨hlt, hget⟩ := List.getElem?_eq_some_iff.mp hb
      have hdrop : m.st.log.block.drop tail = b :: m.st.log.block.drop (tail + 1) := by
        rw [List.drop_eq_getElem_cons hlt, hget]
      have hpins : m.pins = b :: m.st.log.block.drop (tail + 1) := by
        simp only [Machine.pins, hm, Mode.pins, hdrop]
      have hnd : b ∉ m.st.log.block.drop (tail + 1) := by
        have := hi.proto.nodup.sublist (List.drop_sublist tail _)
        rw [hdrop] at this
        exact (List.nodup_cons.mp this).1
      have harea : L (start + tail + 1) = m.logged b := by
        rw [hL.home, hcopy tail b hlt hb]
        exact fun hx => hi.home (Mode.pins_subset _ _ hx) (by omega) rfl
      simp only [hm, Mode.pins, hdrop] at hL
      have hd := (hL.installTrans hnd (hi.home hmem (by omega)) hw).2
      rw [harea] at hd
      constructor
      · exact h.home
      · intro x hx
        exact h.pinned x (by rw [hpins]; exact List.mem_cons_of_mem _ hx)
      · intro x d hlast hx
        dsimp only
        rw [hd]
        by_cases hxb : x = b
        · subst hxb
          have hp := h.pinned x (by rw [hpins]; exact List.mem_cons_self)
          rw [update_self]
          exact Option.some_inj.mp (hp.symm.trans hlast)
        · rw [update_of_ne hxb]
          apply h.settled x d hlast
          rw [hpins, List.mem_cons, not_or]
          exact ⟨hxb, hx⟩
      · intro q tail' _ i x hi' hx
        dsimp only at hi' hx ⊢
        rw [hd, update_of_ne (hi.home hmem (by omega))]
        exact hcopy i x hi' hx
      · intros
        contradiction
    | none =>
      simp only [hb, Option.some.injEq] at hs
      subst hs
      have hle := List.getElem?_eq_none_iff.mp hb
      refine h.of_same rfl rfl ?_ ?_ ?_
      · simp only [Machine.pins, hm, Mode.pins, List.drop_eq_nil_of_le hle]
      · intros
        contradiction
      · intros
        contradiction
  | clear p =>
    simp only [Machine.commit, hm, Option.map_eq_some_iff] at hs
    obtain ⟨c', hw, rfl⟩ := hs
    have hd := (hL.writeHead hw).2
    refine h.write_log (b := start) ⟨Nat.le_refl _, by omega⟩ hd rfl ?_ ?_ rfl
    · simp only [Machine.pins, hm, Mode.pins]
    · intros
      contradiction
  | done p =>
    obtain ⟨-, -, hnil⟩ : _ ∧ _ ∧ _ := by simpa only [Machine.Phase, hm] using hphase
    simp only [Machine.commit, hm, Option.some.injEq] at hs
    subst hs
    refine h.of_same rfl rfl ?_ ?_ ?_
    · simp only [Machine.pins, hm, Mode.pins, St.endCommit, endCommit, hnil]
    · intros
      contradiction
    · intros
      contradiction
  | _ => simp [Machine.commit, hm] at hs

theorem of_none (hp : m'.pins = []) (hi : ∀ p tail, m'.mode ≠ .install p tail) (hl : ∀ b, last b = none) :
    Recorded start size m' last := by
  constructor
  · exact fun b hb => absurd (hl b) hb
  · rw [hp]
    exact nofun
  · intro b d hb
    rw [hl b] at hb
    cases hb
  · exact fun p tail he => absurd he (hi p tail)
  · exact fun _ => hl

theorem recover (h : Recorded start size m last) (hs : m.recover p start = some m') : Recorded start size m' last := by
  have hl := h.booting (recover_booting hs).1
  unfold Machine.recover at hs
  split at hs
  · obtain ⟨⟨c', block⟩, -, rfl⟩ := Option.map_eq_some_iff.mp hs
    exact .of_none rfl nofun hl
  · split at hs
    · obtain ⟨c', -, rfl⟩ := Option.map_eq_some_iff.mp hs
      exact .of_none rfl nofun hl
    · cases hs
      exact .of_none rfl nofun hl
  · obtain ⟨c', -, rfl⟩ := Option.map_eq_some_iff.mp hs
    exact .of_none rfl nofun hl
  · cases hs

theorem of_step (h : Recorded start size m last) (hi : MachineInv start size d₀ m)
    (hs : machineStep start size m a = some m') : Recorded start size m' (m.lastWrites last a) := by
  cases a with
  | crash =>
    cases hs
    exact .of_none rfl nofun (fun _ => rfl)
  | recover p =>
    simp only [machineStep] at hs
    split_ifs at hs
    exact h.recover hs
  | commit =>
    simp only [machineStep] at hs
    split_ifs at hs
    exact h.commit hi hs
  | begin p =>
    simp only [machineStep, Machine.userStep] at hs
    split_ifs at hs
    obtain ⟨st, hst, rfl⟩ := Option.map_eq_some_iff.mp hs
    have hblock : st.log.block = m.st.log.block := by
      cases (step_inv hst).2 <;> rfl
    refine h.of_same rfl rfl ?_ id (fun _ _ he => ⟨he, hblock⟩)
    simp only [Machine.pins, hblock]
  | bget p b =>
    simp only [machineStep, Machine.userStep] at hs
    split_ifs at hs
    obtain ⟨⟨c', i⟩, hb, rfl⟩ := Option.map_eq_some_iff.mp hs
    obtain ⟨L, hL, -⟩ := hi.cache
    exact h.of_same (hL.bget hb).2.2.1 rfl rfl id (fun _ _ he => ⟨he, rfl⟩)
  | acquire p =>
    simp only [machineStep, Machine.userStep] at hs
    split_ifs at hs
    obtain ⟨i, hw, hs⟩ := Option.bind_eq_some_iff.mp hs
    obtain ⟨c', hb, rfl⟩ := Option.map_eq_some_iff.mp hs
    obtain ⟨L, hL, -⟩ := hi.cache
    have hpos := (waits_take hw).1
    exact h.of_same (hL.acquire ⟨(hL.ok i).used hpos, rfl⟩ hpos hb).2.2.1 rfl rfl id (fun _ _ he => ⟨he, rfl⟩)
  | modify p i d =>
    simp only [machineStep, Machine.userStep] at hs
    split_ifs at hs
    cases hs
    exact h.of_same rfl rfl rfl id (fun _ _ he => ⟨he, rfl⟩)
  | logWrite p i =>
    simp only [machineStep, Machine.userStep] at hs
    split_ifs at hs with hpanic hboot hg
    cases hs
    exact h.logWrite (hi.running hg.2.1) hg.2.2.2.1
  | brelse p i =>
    simp only [machineStep, Machine.userStep] at hs
    split_ifs at hs
    cases hs
    exact h.of_same (CacheInv.brelse_disk _ _) rfl rfl id (fun _ _ he => ⟨he, rfl⟩)
  | endOp p =>
    simp only [machineStep, Machine.userStep] at hs
    split_ifs at hs with hpanic hboot hg
    cases hs
    exact h.endOp (hi.running hg.2.1)

end Recorded

theorem want_of_step (hs : machineStep start size m a = some m') {q : P} {i : Fin nBuf} (hw : m'.want q = some i) :
    (a ≠ .crash ∧ (∀ b, a ≠ .bget q b) ∧ m.want q = some i) ∨
      ∃ b c', a = .bget q b ∧ m.c.bget b = some (c', i) ∧ m'.c = c' := by
  have hwant : (∀ b, a ≠ .bget q b) → a ≠ .crash → m.want q = some i := by
    intro hb hc
    cases a with
    | crash => exact absurd rfl hc
    | recover p =>
      simp only [machineStep] at hs
      split_ifs at hs
      unfold Machine.recover at hs
      split at hs
      · obtain ⟨r, -, rfl⟩ := Option.map_eq_some_iff.mp hs
        exact hw
      · split at hs
        · obtain ⟨c', -, rfl⟩ := Option.map_eq_some_iff.mp hs
          exact hw
        · cases hs
          exact hw
      · obtain ⟨c', -, rfl⟩ := Option.map_eq_some_iff.mp hs
        exact hw
      · cases hs
    | commit =>
      simp only [machineStep] at hs
      split_ifs at hs
      unfold Machine.commit at hs
      split at hs
      · split at hs
        · obtain ⟨c', -, rfl⟩ := Option.map_eq_some_iff.mp hs
          exact hw
        · cases hs
          exact hw
      · obtain ⟨c', -, rfl⟩ := Option.map_eq_some_iff.mp hs
        exact hw
      · split at hs
        · obtain ⟨c', -, rfl⟩ := Option.map_eq_some_iff.mp hs
          exact hw
        · cases hs
          exact hw
      · obtain ⟨c', -, rfl⟩ := Option.map_eq_some_iff.mp hs
        exact hw
      · cases hs
        exact hw
      · cases hs
    | begin p =>
      simp only [machineStep, Machine.userStep] at hs
      split_ifs at hs
      obtain ⟨st, -, rfl⟩ := Option.map_eq_some_iff.mp hs
      exact hw
    | bget p b =>
      simp only [machineStep, Machine.userStep] at hs
      split_ifs at hs
      obtain ⟨r, -, rfl⟩ := Option.map_eq_some_iff.mp hs
      have hqp : q ≠ p := by
        rintro rfl
        exact hb b rfl
      exact (update_of_ne hqp _ _).symm.trans hw
    | acquire p =>
      simp only [machineStep, Machine.userStep] at hs
      split_ifs at hs
      obtain ⟨j, -, hs⟩ := Option.bind_eq_some_iff.mp hs
      obtain ⟨c', -, rfl⟩ := Option.map_eq_some_iff.mp hs
      have hqp : q ≠ p := by
        rintro rfl
        simp only [update_self] at hw
        cases hw
      exact (update_of_ne hqp _ _).symm.trans hw
    | logWrite p j =>
      simp only [machineStep, Machine.userStep] at hs
      split_ifs at hs
      cases hs
      unfold Machine.logWrite at hw
      dsimp only at hw
      split at hw <;> exact hw
    | endOp p =>
      simp only [machineStep, Machine.userStep] at hs
      split_ifs at hs
      cases hs
      unfold Machine.endOp at hw
      dsimp only at hw
      split_ifs at hw <;> exact hw
    | modify p j d | brelse p j =>
      simp only [machineStep, Machine.userStep] at hs
      split_ifs at hs
      cases hs
      exact hw
  cases a with
  | bget p b =>
    by_cases hqp : q = p
    · subst hqp
      right
      simp only [machineStep, Machine.userStep] at hs
      split_ifs at hs
      obtain ⟨⟨c', j⟩, hb, rfl⟩ := Option.map_eq_some_iff.mp hs
      simp only [update_self, Option.some.injEq] at hw
      subst hw
      exact ⟨b, c', rfl, hb, rfl⟩
    · have hne : ∀ x, Act.bget p b ≠ .bget q x := by
        rintro x ⟨⟩
        exact hqp rfl
      exact Or.inl ⟨by simp, hne, hwant hne (by simp)⟩
  | crash =>
    cases hs
    cases hw
  | _ => exact Or.inl ⟨by simp, by simp, hwant (by simp) (by simp)⟩

structure Watch.Inv (start size : ℕ) (d₀ : ℕ → Block) (w : Watch P) : Prop where
  machine : MachineInv start size d₀ w.m
  recorded : Recorded start size w.m w.last
  waiting : ∀ p i, w.m.want p = some i → w.m.c.Caches i (w.asked p)
  devs : ∀ i, (w.m.c.buf i).dev = 0 ∨ (w.m.c.buf i).dev = rootDev

namespace Watch

variable {w w' : Watch P} {d₀ : ℕ → Block}

theorem Inv.of_step (h : Inv start size d₀ w) (hs : w.step start size a = some w') : Inv start size d₀ w' := by
  obtain ⟨m', hm, rfl⟩ := Option.map_eq_some_iff.mp hs
  refine ⟨h.machine.of_step hm, h.recorded.of_step h.machine hm, ?_, ?_⟩
  · intro q i hw
    obtain ⟨L, hL, -⟩ := h.machine.cache
    rcases want_of_step hm hw with ⟨hc, hb, hwant⟩ | ⟨b, c', rfl, hb, rfl⟩
    · have hask : (match a with
          | .bget p b => update w.asked p b
          | _ => w.asked) q = w.asked q := by
        cases a with
        | bget p b =>
          have hqp : q ≠ p := by
            rintro rfl
            exact hb b rfl
          exact update_of_ne hqp _ _
        | _ => rfl
      have hpos : 0 < (w.m.c.buf i).refcnt := by
        have := (waits_take hwant).1
        rw [(hL.ok i).refs]
        omega
      have htag := (machineStep_retags hc hm).kept i hpos
      have hcache := h.waiting q i hwant
      dsimp only
      rw [hask]
      exact ⟨(Prod.mk.inj htag).1.trans hcache.1, (Prod.mk.inj htag).2.trans hcache.2⟩
    · have hcache := (hL.bget hb).2.1
      dsimp only
      rw [update_self]
      exact hcache
  · intro i
    by_cases hc : a = .crash
    · subst hc
      cases hm
      exact Or.inl rfl
    · rcases (machineStep_retags hc hm).dev i with hd | hd
      · dsimp only
        rw [hd]
        exact h.devs i
      · exact Or.inr hd

theorem Inv.of_run (hs : 0 < size) (hd : readEntries (d₀ start) = []) {C : Watch P → Act P → Prop}
    (h : Run (Watch.step start size) C (Watch.boot P start size d₀) w) : Inv start size d₀ w := by
  refine h.invariant (I := Inv start size d₀) ?_ (fun _ _ _ hi _ ht => hi.of_step ht)
  refine ⟨MachineInv.of_run hs hd (C := fun _ _ => True) .refl, ?_, nofun, fun i => Or.inl rfl⟩
  exact .of_none rfl nofun (fun _ => rfl)

end Watch

/-- The buffer cache with the log is a transparent disk: `bread` returns the data last given to `log_write` for the block, or else
the disk's. -/
theorem buffer_cache_is_transparent {d₀ : ℕ → Block} {w : Watch P} (hsize : 0 < size) (hempty : readEntries (d₀ start) = [])
    (hrun : Run (Watch.step start size) (fun _ _ => True) (Watch.boot P start size d₀) w) :
    (∀ p m', machineStep start size w.m (.acquire p) = some m' →
      ∃ i, w.m.want p = some i ∧ m'.c.Caches i (w.asked p) ∧ (m'.c.buf i).lock = some p ∧ (m'.c.buf i).valid = true ∧
        (m'.c.buf i).data = (w.last (w.asked p)).getD (w.m.c.disk (w.asked p))) ∧
    (∀ b ∈ w.m.pins, ∃ i, w.m.c.Caches i b ∧ (w.m.c.buf i).valid = true ∧
      ∀ a m', a ≠ .crash → machineStep start size w.m a = some m' → m'.c.Caches i b) ∧
    (∀ i, (w.m.c.buf i).refcnt = (if (w.m.c.buf i).lock.isSome then 1 else 0) + waits w.m.want i +
      (if (w.m.c.buf i).dev = rootDev ∧ (w.m.c.buf i).blockno ∈ w.m.pins then 1 else 0)) ∧
    (∀ p tail b m', w.m.mode = .install p tail → w.m.st.log.block[tail]? = some b →
      machineStep start size w.m .commit = some m' → w.m.pins = b :: m'.pins ∧ b ∉ m'.pins) ∧
    (∀ i j, (w.m.c.buf i).dev ≠ 0 → (w.m.c.buf j).dev = (w.m.c.buf i).dev →
      (w.m.c.buf j).blockno = (w.m.c.buf i).blockno → i = j) := by
  have h := Watch.Inv.of_run hsize hempty hrun
  obtain ⟨L, hL, hlog⟩ := h.machine.cache
  refine ⟨?_, ?_, fun i => (hL.ok i).refs, ?_, ?_⟩
  · intro p m' hs
    simp only [machineStep, Machine.userStep] at hs
    split_ifs at hs
    obtain ⟨i, hw, hs⟩ := Option.bind_eq_some_iff.mp hs
    obtain ⟨c', hb, rfl⟩ := Option.map_eq_some_iff.mp hs
    obtain ⟨hL', hc, -, -, hlock, hvalid, hclean⟩ := hL.acquire (h.waiting p i hw) (waits_take hw).1 hb
    refine ⟨i, hw, hc, hlock, hvalid, ?_⟩
    have hdata := (hL'.ok i).data hc.1 hvalid hclean
    rw [hc.2] at hdata
    exact hdata.trans (h.recorded.content hL hlog _)
  · intro b hb
    obtain ⟨i, hi, hv⟩ := hL.pinned b hb
    refine ⟨i, hi, hv, fun a m' ha hs => ?_⟩
    have hin : (w.m.c.buf i).dev = rootDev ∧ (w.m.c.buf i).blockno ∈ w.m.mode.pins w.m.st.log.block :=
      ⟨hi.1, by rw [hi.2]; exact hb⟩
    have hpos : 0 < (w.m.c.buf i).refcnt := by
      rw [(hL.ok i).refs, if_pos hin]
      omega
    have htag := (machineStep_retags ha hs).kept i hpos
    exact ⟨(Prod.mk.inj htag).1.trans hi.1, (Prod.mk.inj htag).2.trans hi.2⟩
  · intro p tail b m' hm hb hs
    obtain ⟨hlt, hget⟩ := List.getElem?_eq_some_iff.mp hb
    have hdrop : w.m.st.log.block.drop tail = b :: w.m.st.log.block.drop (tail + 1) := by
      rw [List.drop_eq_getElem_cons hlt, hget]
    simp only [machineStep, Machine.commit, hm, hb] at hs
    split_ifs at hs
    obtain ⟨c', -, rfl⟩ := Option.map_eq_some_iff.mp hs
    have hpins : w.m.pins = b :: w.m.st.log.block.drop (tail + 1) := by
      simp only [Machine.pins, hm, Mode.pins, hdrop]
    refine ⟨hpins, ?_⟩
    have hnodup := h.machine.proto.nodup.sublist (List.drop_sublist tail _)
    rw [hdrop] at hnodup
    exact (List.nodup_cons.mp hnodup).1
  · intro i j hdev hd hb
    have hroot := (h.devs i).resolve_left hdev
    exact hL.uniq i j (w.m.c.buf i).blockno ⟨hroot, rfl⟩ ⟨hd.trans hroot, hb⟩

def readBack : List (Act Unit) :=
  [.recover (), .recover (), .recover (), .begin (), .bget () 100, .acquire (), .modify () secondBuf (fun _ => 7),
    .logWrite () secondBuf, .brelse () secondBuf, .bget () 100]

def wroteBlock : Option (Watch Unit) :=
  execute (Watch.step 2 nlog) (fun _ _ => True) (Watch.boot Unit 2 nlog (fun _ _ => 0)) readBack

theorem written_block_read_back :
    ∃ (w : Watch Unit) (m' : Machine Unit), wroteBlock = some w ∧ machineStep 2 nlog w.m (.acquire ()) = some m' ∧
      ∃ i, m'.c.Caches i (w.asked ()) ∧ (m'.c.buf i).data = (w.last (w.asked ())).getD (w.m.c.disk (w.asked ())) := by
  have hsome : (wroteBlock.bind (fun w => machineStep 2 nlog w.m (.acquire ()))).isSome = true := by
    decide +kernel
  obtain ⟨m', hm'⟩ := Option.isSome_iff_exists.mp hsome
  obtain ⟨w, hw, hstep⟩ := Option.bind_eq_some_iff.mp hm'
  obtain ⟨i, -, hc, -, -, hdata⟩ :=
    (buffer_cache_is_transparent (by decide) (by decide) (run_of_execute hw)).1 () m' hstep
  exact ⟨w, m', hw, hstep, i, hc, hdata⟩

end Xv6.Logging
