import Mathlib.Data.List.TakeWhile
import Xv6.Kernel.FileSize

namespace Xv6.Kernel

open Lib Vm Prog

/-! ### What the user sees -/

def userByte (x : KState) (a : ℕ) : Option UInt8 := (leafOf x a).map (fun pte => (x.1.mem pte.pa).get (a % pgSize))

def userBytes (x : KState) (a n : ℕ) : List UInt8 := (List.range n).map (fun i => (userByte x (a + i)).getD 0)

def userStore (x : KState) (a : ℕ) (b : UInt8) : KState :=
  match leafOf x a with
  | some pte => (x.1.fill pte.pa ((x.1.mem pte.pa).patch (a % pgSize) 1 (fun _ => b)), x.2)
  | none => x

def userStores (x : KState) (a : ℕ) (src : ℕ → UInt8) : ℕ → KState
  | 0 => x
  | n + 1 => userStore (userStores x a src n) (a + n) (src n)

def access (sys : Sys) (cause va : ℕ) : KM Bool := do
  let pte ← pteAt .own va
  if pte.any (fun pte => pte.u && if cause = 15 then pte.w else pte.r) then return true
  else
    let r ← vmaFault sys va cause
    return r = 0

def touch (sys : Sys) (cause : ℕ) : ℕ → ℕ → KM Bool
  | _, 0 => return true
  | va, n + 1 => do
    let done ← access sys cause va
    if done then touch sys cause (va + 1) n else return false

def cstr (l : List UInt8) : Option (List UInt8) := if 0 ∈ l then some (l.takeWhile (· ≠ 0)) else none

def Gives {α : Type} (m : KM α) (x : KState) (r : α) (y : KState) : Prop :=
  m.post x (fun r' y' => r' = r ∧ y' = y) (fun _ => False)

structure Resident (x : KState) (v : Vma) (a n : ℕ) : Prop where
  mapped : ∃ k, x.2.proc.vmas k = some v
  table : ∃ pt, x.2.proc.pagetable = some pt
  below : a + n ≤ Vm.trapframe
  covers : ∀ b, a ≤ b → b < a + n → v.Covers b
  pages : ∀ b, a ≤ b → b < a + n → ∃ pa, leafOf x b = some (v.pte pa)

section

variable {sys : Sys} {x : KState} {v : Vma} {a n va : ℕ} {src : ℕ → UInt8} {acc : List UInt8}

theorem Resident.sub {a' n' : ℕ} (h : Resident x v a n) (hlo : a ≤ a') (hhi : a' + n' ≤ a + n) : Resident x v a' n' :=
  ⟨h.mapped, h.table, hhi.trans h.below, fun b hb hb' => h.covers b (hlo.trans hb) (hb'.trans_le hhi),
    fun b hb hb' => h.pages b (hlo.trans hb) (hb'.trans_le hhi)⟩

theorem Gives.bind {α β : Type} {m : KM α} {k : α → KM β} {r : α} {r' : β} {y z : KState} (h : Gives m x r y)
    (hk : Gives (k r) y r' z) : Gives (m >>= k) x r' z := by
  unfold Gives at *
  rw [post_bind]
  apply post_mono h _ (fun _ he => he)
  rintro _ _ ⟨rfl, rfl⟩
  exact hk

/-! ### The copies -/

theorem gives_walkaddr {pte : Pte} (h : ∃ pt, x.2.proc.pagetable = some pt) (hva : va < maxVa)
    (hl : leafOf x va = some pte) (hu : pte.u = true) : Gives (walkaddr .own va) x (some pte.pa) x := by
  obtain ⟨pt, hpt⟩ := h
  rw [leafOf_eq hpt] at hl
  obtain ⟨m, hm⟩ := PageTable.node0_of_leaf hl
  rw [Gives, walkaddr, if_neg (by omega), post_bind]
  apply post_walk hpt hva
  rw [hm, Option.isSome_some, if_pos rfl, post_bind]
  apply post_pteAt hpt
  rw [hl]
  refine ⟨?_, rfl⟩
  rw [if_pos hu]

theorem Resident.first (h : Resident x v a n) (hn : 0 < n) :
    ∃ pa, Gives (walkaddr .own (pgRoundDown a)) x (some pa) x ∧
      ∀ b, a ≤ b → b < a + n → b < pgRoundDown a + pgSize → ∃ pte, leafOf x b = some pte ∧ pte.pa = pa := by
  have hbelow := h.below
  obtain ⟨pa, hl⟩ := h.pages a (Nat.le_refl _) (by omega)
  have hround : pgRoundDown a < maxVa ∧ pgRoundDown a / pgSize = a / pgSize := by
    simp only [pgRoundDown, pgSize, Vm.trapframe, trampoline, maxVa] at *
    omega
  have hlt : ∀ b, b < a + n → b < 2 ^ 39 := by
    intro b hb
    simp only [Vm.trapframe, trampoline, maxVa, pgSize] at hbelow
    omega
  refine ⟨pa, ?_, ?_⟩
  · have hl' : leafOf x (pgRoundDown a) = some (v.pte pa) := by
      rw [← hl]
      exact leafOf_of_div _ (hlt a (by omega)) (hround.1.trans (by decide)) hround.2
    exact gives_walkaddr h.table hround.1 hl' rfl
  · intro b hb hb' hpage
    refine ⟨v.pte pa, ?_, rfl⟩
    rw [← hl]
    apply leafOf_of_div _ (hlt a (by omega)) (hlt b hb')
    simp only [pgRoundDown, pgSize] at hpage ⊢
    omega

theorem userBytes_zero : userBytes x a 0 = [] := rfl

theorem userBytes_add {m : ℕ} : userBytes x a (m + n) = userBytes x a m ++ userBytes x (a + m) n := by
  rw [userBytes, List.range_add, List.map_append, List.map_map]
  congr 1
  apply List.map_congr_left
  intro i _
  simp only [Function.comp_apply, Nat.add_assoc]

theorem gives_loadBytes {pa m : ℕ} (hm : a % pgSize + m ≤ pgSize)
    (h : ∀ b, a ≤ b → b < a + m → ∃ pte, leafOf x b = some pte ∧ pte.pa = pa) :
    Gives (loadBytes pa (a % pgSize) m) x (userBytes x a m) x := by
  refine ⟨?_, rfl⟩
  apply List.map_congr_left
  intro i hi
  rw [List.mem_range] at hi
  obtain ⟨pte, hl, rfl⟩ := h (a + i) (by omega) (by omega)
  have hmod : (a + i) % pgSize = a % pgSize + i := by
    simp only [pgSize] at hm ⊢
    omega
  rw [userByte, hl, Option.map_some, Option.getD_some, hmod]

theorem turn (hn : 0 < n) : ∃ m, min (pgSize - a % pgSize) n = m ∧ 0 < m ∧ m ≤ n ∧ a % pgSize + m ≤ pgSize ∧
    a + m ≤ pgRoundDown a + pgSize ∧ (m < n → pgRoundDown a + pgSize = a + m) := by
  have hlt : a % pgSize < pgSize := Nat.mod_lt _ (by decide)
  have hmod : a = pgRoundDown a + a % pgSize := by
    rw [pgRoundDown, Nat.mul_comm]
    exact (Nat.div_add_mod a pgSize).symm
  exact ⟨_, rfl, by omega, by omega, by omega, by omega, by omega⟩

theorem gives_copyinLoop {fuel : ℕ} (h : Resident x v a n) (hfuel : n ≤ fuel) :
    Gives (copyinLoop .own fuel a n acc) x (some (acc ++ userBytes x a n)) x := by
  induction fuel generalizing a n acc with
  | zero =>
    obtain rfl := Nat.le_zero.mp hfuel
    exact ⟨by rw [userBytes_zero, List.append_nil], rfl⟩
  | succ fuel ih =>
    unfold copyinLoop
    by_cases hn : n = 0
    · subst hn
      rw [if_pos rfl]
      exact ⟨by rw [userBytes_zero, List.append_nil], rfl⟩
    · rw [if_neg hn]
      obtain ⟨m, hm, hpos, hle, hpage, hend, hnext⟩ := turn (a := a) (Nat.pos_of_ne_zero hn)
      obtain ⟨pa, hwalk, hpa⟩ := h.first (Nat.pos_of_ne_zero hn)
      have hload := gives_loadBytes hpage (fun b hb hb' => hpa b hb (by omega) (by omega))
      apply hwalk.bind
      dsimp only
      rw [hm]
      apply hload.bind
      rw [show userBytes x a n = userBytes x a m ++ userBytes x (a + m) (n - m) by
        rw [← userBytes_add, Nat.add_sub_cancel' hle], ← List.append_assoc]
      by_cases hlast : m < n
      · rw [hnext hlast]
        exact ih (h.sub (by omega) (by omega)) (by omega)
      · have hzero : n - m = 0 := by omega
        rw [hzero, userBytes_zero, List.append_nil]
        cases fuel <;> exact ⟨rfl, rfl⟩

theorem cstr_append {l l' : List UInt8} (h : 0 ∉ l) : cstr (l ++ l') = (cstr l').map (l ++ ·) := by
  have hall : ∀ b ∈ l, decide (b ≠ 0) = true := by
    intro b hb
    rw [decide_eq_true_eq]
    rintro rfl
    exact h hb
  unfold cstr
  by_cases h' : 0 ∈ l'
  · rw [if_pos (List.mem_append_right _ h'), if_pos h', Option.map_some, List.takeWhile_append_of_pos hall]
  · rw [if_neg h', if_neg (by rw [List.mem_append]; exact not_or.mpr ⟨h, h'⟩), Option.map_none]

theorem cstr_append_of_mem {l l' : List UInt8} (h : 0 ∈ l) : cstr (l ++ l') = cstr l := by
  have hlt : (l.takeWhile (· ≠ 0)).length ≠ l.length := by
    intro heq
    have hself := (List.takeWhile_prefix (p := fun b : UInt8 => decide (b ≠ 0)) (l := l)).eq_of_length heq
    have := List.mem_takeWhile_imp (hself.symm ▸ h)
    exact absurd this (by decide)
  unfold cstr
  rw [if_pos (List.mem_append_left _ h), if_pos h, List.takeWhile_append, if_neg hlt]

theorem gives_copyinstrLoop {fuel : ℕ} (h : Resident x v a n) (hfuel : n ≤ fuel) :
    Gives (copyinstrLoop .own fuel a n acc) x ((cstr (userBytes x a n)).map (acc ++ ·)) x := by
  induction fuel generalizing a n acc with
  | zero =>
    obtain rfl := Nat.le_zero.mp hfuel
    exact ⟨rfl, rfl⟩
  | succ fuel ih =>
    unfold copyinstrLoop
    by_cases hn : n = 0
    · subst hn
      rw [if_pos rfl]
      exact ⟨rfl, rfl⟩
    · rw [if_neg hn]
      obtain ⟨m, hm, hpos, hle, hpage, hend, hnext⟩ := turn (a := a) (Nat.pos_of_ne_zero hn)
      obtain ⟨pa, hwalk, hpa⟩ := h.first (Nat.pos_of_ne_zero hn)
      have hload := gives_loadBytes hpage (fun b hb hb' => hpa b hb (by omega) (by omega))
      apply hwalk.bind
      dsimp only
      rw [hm]
      apply hload.bind
      rw [show userBytes x a n = userBytes x a m ++ userBytes x (a + m) (n - m) by
        rw [← userBytes_add, Nat.add_sub_cancel' hle]]
      by_cases hzero : 0 ∈ userBytes x a m
      · rw [if_pos hzero, cstr_append_of_mem hzero, cstr, if_pos hzero]
        exact ⟨rfl, rfl⟩
      · rw [if_neg hzero, cstr_append hzero, Option.map_map]
        by_cases hlast : m < n
        · rw [hnext hlast]
          have hfun : ((acc ++ ·) ∘ (userBytes x a m ++ ·)) = ((acc ++ userBytes x a m) ++ ·) := by
            funext l
            exact (List.append_assoc _ _ _).symm
          rw [hfun]
          exact ih (h.sub (by omega) (by omega)) (by omega)
        · have hz : n - m = 0 := by omega
          rw [hz]
          cases fuel <;> exact ⟨rfl, rfl⟩

theorem leafOf_userStore {b : UInt8} : leafOf (userStore x a b) va = leafOf x va := by
  unfold userStore
  split <;> rfl

theorem userStores_add {m : ℕ} :
    userStores x a src (m + n) = userStores (userStores x a src m) (a + m) (fun i => src (m + i)) n := by
  induction n with
  | zero => rfl
  | succ n ih =>
    change userStore (userStores x a src (m + n)) (a + (m + n)) (src (m + n)) = _
    rw [ih, ← Nat.add_assoc]
    rfl

theorem userStores_page {pa : ℕ} (hn : a % pgSize + n ≤ pgSize)
    (h : ∀ b, a ≤ b → b < a + n → ∃ pte, leafOf x b = some pte ∧ pte.pa = pa) :
    userStores x a src n = (x.1.fill pa ((x.1.mem pa).patch (a % pgSize) n src), x.2) := by
  induction n with
  | zero =>
    have hsame : (x.1.mem pa).patch (a % pgSize) 0 src = x.1.mem pa := by
      apply Bytes.ext_get
      intro i _
      exact Bytes.get_patch_of_not_mem (by omega)
    rw [hsame, Shared.fill, Function.update_eq_self]
    rfl
  | succ n ih =>
    have hprev := ih (by omega) (fun b hb hb' => h b hb (by omega))
    obtain ⟨pte, hl, rfl⟩ := h (a + n) (by omega) (by omega)
    have hmod : (a + n) % pgSize = a % pgSize + n := by
      simp only [pgSize] at hn ⊢
      omega
    change userStore (userStores x a src n) (a + n) (src n) = _
    rw [hprev, userStore]
    rw [show leafOf (x.1.fill pte.pa ((x.1.mem pte.pa).patch (a % pgSize) n src), x.2) (a + n) = some pte from hl, hmod]
    dsimp only [Shared.fill]
    rw [Function.update_self, Function.update_idem]
    congr 3
    apply Bytes.ext_get
    intro i hi
    by_cases hlast : i = a % pgSize + n
    · rw [Bytes.get_patch_of_mem hi (by omega), Bytes.get_patch_of_mem hi (by omega)]
      congr 1
      omega
    · rw [Bytes.get_patch_of_not_mem (by omega)]
      by_cases hin : a % pgSize ≤ i ∧ i < a % pgSize + n
      · rw [Bytes.get_patch_of_mem hi hin, Bytes.get_patch_of_mem hi (by omega)]
      · rw [Bytes.get_patch_of_not_mem hin, Bytes.get_patch_of_not_mem (by omega)]

theorem Resident.stores {m b : ℕ} (h : Resident x v a n) : Resident (userStores x b src m) v a n := by
  induction m with
  | zero => exact h
  | succ m ih =>
    have hleaf : ∀ va, leafOf (userStores x b src (m + 1)) va = leafOf (userStores x b src m) va :=
      fun va => leafOf_userStore
    have hlocal : (userStores x b src (m + 1)).2 = (userStores x b src m).2 := by
      change (userStore (userStores x b src m) (b + m) (src m)).2 = _
      unfold userStore
      split <;> rfl
    refine ⟨?_, ?_, ih.below, ih.covers, fun c hc hc' => ?_⟩
    · rw [hlocal]
      exact ih.mapped
    · rw [hlocal]
      exact ih.table
    · rw [hleaf]
      exact ih.pages c hc hc'

theorem gives_copyoutLoop {fuel tot : ℕ} (h : Resident x v a n) (hfuel : n ≤ fuel) :
    Gives (copyoutLoop .own src fuel a n tot) x true (userStores x a (fun i => src (tot + i)) n) := by
  induction fuel generalizing a n tot x with
  | zero =>
    obtain rfl := Nat.le_zero.mp hfuel
    exact ⟨rfl, rfl⟩
  | succ fuel ih =>
    unfold copyoutLoop
    by_cases hn : n = 0
    · subst hn
      rw [if_pos rfl]
      exact ⟨rfl, rfl⟩
    · rw [if_neg hn]
      obtain ⟨m, hm, hpos, hle, hpage, hend, hnext⟩ := turn (a := a) (Nat.pos_of_ne_zero hn)
      obtain ⟨pa, hwalk, hpa⟩ := h.first (Nat.pos_of_ne_zero hn)
      have hstore : Gives (storeBytes pa (a % pgSize) m (fun i => src (tot + i))) x ()
          (userStores x a (fun i => src (tot + i)) m) := by
        rw [userStores_page hpage (fun b hb hb' => hpa b hb (by omega) (by omega))]
        exact ⟨rfl, rfl⟩
      apply hwalk.bind
      dsimp only
      rw [hm]
      apply hstore.bind
      rw [show userStores x a (fun i => src (tot + i)) n =
          userStores (userStores x a (fun i => src (tot + i)) m) (a + m) (fun i => src (tot + m + i)) (n - m) by
        conv_lhs => rw [← Nat.add_sub_cancel' hle, userStores_add]
        simp only [Nat.add_assoc]]
      by_cases hlast : m < n
      · rw [hnext hlast]
        exact ih (h.stores.sub (by omega) (by omega)) (by omega)
      · have hzero : n - m = 0 := by omega
        rw [hzero]
        cases fuel <;> exact ⟨rfl, rfl⟩

/-! ### The user's accesses -/

theorem gives_touch {cause : ℕ} (h : Resident x v a n)
    (hcause : ∀ pa, (if cause = 15 then (v.pte pa).w else (v.pte pa).r) = true) : Gives (touch sys cause a n) x true x := by
  induction n generalizing a with
  | zero => exact ⟨rfl, rfl⟩
  | succ n ih =>
    obtain ⟨pt, hpt⟩ := h.table
    obtain ⟨pa, hl⟩ := h.pages a (Nat.le_refl _) (by omega)
    have haccess : Gives (access sys cause a) x true x := by
      rw [Gives, access, post_bind]
      apply post_pteAt hpt
      rw [← leafOf_eq hpt, hl, Option.any_some, hcause pa]
      exact ⟨rfl, rfl⟩
    exact haccess.bind (ih (h.sub (by omega) (by omega)))

end

variable {x : KState} {v : Vma} {a n : ℕ}

section Example

def afterProg {α : Type} (m : KM α) (x : KState) : KState := ((m.eval x).toOption.map Prod.snd).getD x

theorem returns_afterProg {α : Type} {m : KM α} {x : KState} {r : α} (h : (m.eval x).toOption.map Prod.fst = some r) :
    m.returns x r (afterProg m x) := by
  unfold afterProg
  cases he : m.eval x with
  | error e =>
    rw [he] at h
    cases h
  | ok p =>
    rw [he] at h
    cases h
    exact returns_of_eval he

def untouchedPage : KState := after (sysMmap 0 4096 3 1 0 0) linkedFile

theorem untouchedPage_returns : (sysMmap 0 4096 3 1 0 0).returns linkedFile 274877894656 untouchedPage :=
  returns_after (by decide +kernel)

attribute [irreducible] untouchedPage

def touchedPage : KState := afterProg (access bootSys 13 274877894656) untouchedPage

theorem touchedPage_returns : (access bootSys 13 274877894656).returns untouchedPage true touchedPage :=
  returns_afterProg (by decide +kernel)

attribute [irreducible] touchedPage

theorem firstLoaded_resident : ∃ v, Resident firstLoaded v 274877894656 3 ∧ protRead v.prot = true := by
  have hvma : (firstLoaded.2.proc.vmas ⟨0, by decide⟩).any
      (fun v => v.addr = 274877894656 ∧ v.length = 4096 ∧ v.prot = 3) = true := by decide +kernel
  obtain ⟨v, hv, hprops⟩ := (Option.any_eq_true _ _).mp hvma
  rw [decide_eq_true_eq] at hprops
  obtain ⟨haddr, hlength, hprot⟩ := hprops
  have htable : firstLoaded.2.proc.pagetable.isSome = true := by decide +kernel
  have hany : (leafOf firstLoaded 274877894656).any (fun pte => pte.r && pte.w && !pte.x && pte.u) = true := by
    decide +kernel
  obtain ⟨pte, hpte, hflags⟩ := (Option.any_eq_true _ _).mp hany
  simp only [Bool.and_eq_true, Bool.not_eq_true'] at hflags
  have hleaf : pte = v.pte pte.pa := by
    obtain ⟨pa, r, w, x, u, hl⟩ := pte
    simp only [Vma.pte, hprot, Pte.mk.injEq, true_and]
    exact ⟨hflags.1.1.1, hflags.1.1.2, hflags.1.2, hflags.2⟩
  refine ⟨v, ⟨⟨_, hv⟩, Option.isSome_iff_exists.mp htable, by decide, ?_, ?_⟩, by rw [hprot]; decide⟩
  · intro b hb hb'
    unfold Vma.Covers
    omega
  · intro b hb hb'
    refine ⟨pte.pa, ?_⟩
    rw [← hleaf, ← hpte]
    apply leafOf_of_div _ (by decide) (by omega)
    simp only [pgSize]
    omega

end Example

end Xv6.Kernel
