import Xv6.Kernel.UserMemory

namespace Xv6.Kernel

open Lib Vm Prog

/-! ### The stack of a new image -/

def pushed (sp n : ℕ) : ℕ := sp - n - (sp - n) % 16

def up16 (n : ℕ) : ℕ := (n + 15) / 16 * 16

def NoUnderflow (stackbase : ℕ) : ℕ → List ℕ → Prop
  | _, [] => True
  | sp, n :: sizes => n ≤ sp ∧ (stackbase ≤ pushed sp n → NoUnderflow stackbase (pushed sp n) sizes)

def cstring (data : Page) : List UInt8 := (List.range (strlen data)).map data.get

def pushSizes (strings : List (List UInt8)) : List ℕ := strings.map (·.length + 1) ++ [(strings.length + 1) * 8]

def seenWord (pt : PageTable) (s : Shared) (a : ℕ) : ℕ := leOf (seenBytes pt s a 8) 0 8

def regions (strings : List (List UInt8)) (ptrs : List ℕ) (sp : ℕ) : List (ℕ × ℕ) :=
  List.zipWith (fun p str => (p, str.length + 1)) ptrs strings ++ [(sp, (strings.length + 1) * 8)]

inductive Placed (pt : PageTable) (s : Shared) : ℕ → List (List UInt8) → List ℕ → ℕ → Prop
  | nil (sp : ℕ) : Placed pt s sp [] [] sp
  | cons {sp p sp' : ℕ} {str : List UInt8} {strings : List (List UInt8)} {ptrs : List ℕ} (hle : p + (str.length + 1) ≤ sp)
    (hseen : seenBytes pt s p (str.length + 1) = str ++ [0]) (h : Placed pt s p strings ptrs sp') :
    Placed pt s sp (str :: strings) (p :: ptrs) sp'

section Layout

variable {sp sp' n stackbase : ℕ} {sizes : List ℕ} {pt : PageTable} {s s' : Shared} {strings : List (List UInt8)}
  {ptrs : List ℕ} {data : Page}

theorem pushed_eq (h : sp % 16 = 0) (hn : n ≤ sp) : pushed sp n + up16 n = sp ∧ pushed sp n % 16 = 0 := by
  unfold pushed up16
  omega

theorem le_up16 (n : ℕ) : n ≤ up16 n := by
  unfold up16
  omega

theorem noUnderflow (hbase : pgSize ≤ stackbase) (hsp : stackbase ≤ sp) (hsizes : ∀ n ∈ sizes, n ≤ pgSize) :
    NoUnderflow stackbase sp sizes := by
  induction sizes generalizing sp with
  | nil => trivial
  | cons n sizes ih =>
    constructor
    · have := hsizes n List.mem_cons_self
      omega
    · intro hle
      exact ih hle (fun m hm => hsizes m (List.mem_cons_of_mem n hm))

theorem get_strlen (h : ∃ i < pgSize, data.get i = 0) : strlen data < pgSize ∧ data.get (strlen data) = 0 := by
  have hex : ∃ i ∈ List.range pgSize, (!decide (data.get i ≠ 0)) = true := by
    obtain ⟨i, hi, hz⟩ := h
    exact ⟨i, List.mem_range.mpr hi, by simp [hz]⟩
  have hlt := List.findIdx_lt_length_of_exists hex
  have hlen : strlen data = (List.range pgSize).findIdx (fun i => !decide (data.get i ≠ 0)) := by
    rw [strlen, List.takeWhile_eq_take_findIdx_not, List.length_take]
    omega
  have hget := List.findIdx_getElem (w := hlt)
  rw [List.getElem_range] at hget
  rw [hlen]
  rw [List.length_range] at hlt
  exact ⟨hlt, by simpa using hget⟩

theorem length_cstring (data : Page) : (cstring data).length = strlen data := by
  rw [cstring, List.length_map, List.length_range]

theorem seenBytes_congr {a : ℕ} (h : ∀ i < n, seen pt s' (a + i) = seen pt s (a + i)) :
    seenBytes pt s' a n = seenBytes pt s a n := by
  apply List.map_congr_left
  intro i hi
  rw [h i (List.mem_range.mp hi)]

theorem seenBytes_string {a : ℕ} (hdata : ∃ i < pgSize, data.get i = 0)
    (h : ∀ i < strlen data + 1, seen pt s (a + i) = some (data.get i)) :
    seenBytes pt s a ((cstring data).length + 1) = cstring data ++ [0] := by
  have hbytes : ∀ m ≤ strlen data + 1, seenBytes pt s a m = (List.range m).map data.get := by
    intro m hm
    apply List.map_congr_left
    intro i hi
    rw [h i (by have := List.mem_range.mp hi; omega), Option.getD_some]
  rw [length_cstring, hbytes _ (le_refl _), List.range_succ, List.map_append, cstring]
  simp only [List.map_cons, List.map_nil, (get_strlen hdata).2]

namespace Placed

theorem length_eq (h : Placed pt s sp strings ptrs sp') : ptrs.length = strings.length := by
  induction h with
  | nil => rfl
  | cons _ _ _ ih => rw [List.length_cons, List.length_cons, ih]

theorem le (h : Placed pt s sp strings ptrs sp') : sp' ≤ sp := by
  induction h with
  | nil => exact le_refl _
  | cons hle _ _ ih => omega

theorem getD_le (h : Placed pt s sp strings ptrs sp') (k : ℕ) : ptrs.getD k 0 ≤ sp := by
  induction h generalizing k with
  | nil => exact Nat.zero_le _
  | cons hle _ _ ih =>
    cases k with
    | zero =>
      rw [List.getD_cons_zero]
      omega
    | succ k =>
      have := ih k
      rw [List.getD_cons_succ]
      omega

theorem keep (h : Placed pt s sp strings ptrs sp') (hs : ∀ a, sp' ≤ a → seen pt s' a = seen pt s a) :
    Placed pt s' sp strings ptrs sp' := by
  induction h with
  | nil sp => exact .nil sp
  | cons hle hseen h ih =>
    refine .cons hle ?_ (ih hs)
    rw [← hseen]
    apply seenBytes_congr
    intro i _
    exact hs _ (by have := h.le; omega)

theorem bytes (h : Placed pt s sp strings ptrs sp') {i : ℕ} {p : ℕ} {str : List UInt8} (hp : ptrs[i]? = some p)
    (hstr : strings[i]? = some str) : seenBytes pt s p (str.length + 1) = str ++ [0] := by
  induction h generalizing i with
  | nil => cases hp
  | cons hle hseen h ih =>
    cases i with
    | zero =>
      cases hp
      cases hstr
      exact hseen
    | succ i => exact ih hp hstr

theorem within (h : Placed pt s sp strings ptrs sp') {r : ℕ × ℕ}
    (hr : r ∈ List.zipWith (fun p str => (p, str.length + 1)) ptrs strings) : sp' ≤ r.1 ∧ r.1 + r.2 ≤ sp := by
  induction h with
  | nil => cases hr
  | cons hle hseen h ih =>
    rw [List.zipWith_cons_cons, List.mem_cons] at hr
    rcases hr with rfl | hr
    · exact ⟨h.le, hle⟩
    · have := ih hr
      omega

theorem pairwise (h : Placed pt s sp strings ptrs sp') :
    (List.zipWith (fun p str => (p, str.length + 1)) ptrs strings).Pairwise (fun r q => q.1 + q.2 ≤ r.1) := by
  induction h with
  | nil => exact List.Pairwise.nil
  | cons hle hseen h ih =>
    rw [List.zipWith_cons_cons, List.pairwise_cons]
    exact ⟨fun q hq => (h.within hq).2, ih⟩

end Placed

theorem leOf_of_digits {l : List UInt8} {off w v : ℕ} (h : ∀ k < w, l.getD (off + k) 0 = UInt8.ofNat (v / 256 ^ k)) :
    leOf l off w = v % 256 ^ w := by
  induction w generalizing off v with
  | zero => rw [leOf, pow_zero, Nat.mod_one]
  | succ w ih =>
    have h0 := h 0 (Nat.succ_pos w)
    rw [Nat.add_zero, Nat.pow_zero, Nat.div_one] at h0
    have hrest : leOf l (off + 1) w = v / 256 % 256 ^ w := by
      apply ih
      intro k hk
      have hk' := h (k + 1) (by omega)
      rw [show off + (k + 1) = off + 1 + k by omega] at hk'
      rw [hk', Nat.div_div_eq_div_mul, pow_succ, Nat.mul_comm]
    rw [leOf, h0, hrest, UInt8.toNat_ofNat', Nat.pow_succ' (n := w), Nat.mod_mul]

theorem seenWord_eq {words : List ℕ} {a m k : ℕ} (h : ∀ i < m * 8, seen pt s (a + i) = some (wordsByte words i)) (hk : k < m)
    (hword : words.getD k 0 < 2 ^ 64) : seenWord pt s (a + 8 * k) = words.getD k 0 := by
  have hdigits : leOf (seenBytes pt s (a + 8 * k) 8) 0 8 = words.getD k 0 % 256 ^ 8 := by
    apply leOf_of_digits
    intro j hj
    have hdiv : (8 * k + j) / 8 = k := by omega
    have hmod : (8 * k + j) % 8 = j := by omega
    rw [seenBytes, List.getD_eq_getElem?_getD, List.getElem?_map, Nat.zero_add, List.getElem?_range hj, Option.map_some,
      Option.getD_some, Nat.add_assoc, h _ (by omega), Option.getD_some, wordsByte, hdiv, hmod]
  rw [seenWord, hdigits]
  exact Nat.mod_eq_of_lt hword

end Layout

/-! ### Pushing the arguments -/

def need (sizes : List ℕ) : ℕ := (sizes.map up16).sum

structure Below (pt : PageTable) (x y : KState) (lo hi : ℕ) : Prop where
  state : y = ({ x.1 with mem := y.1.mem }, x.2)
  seen : ∀ b, ¬ (lo ≤ b ∧ b < hi) → seen pt y.1 b = seen pt x.1 b
  frame : ∀ p, (∀ a, physOf pt a ≠ some p) → y.1.mem p = x.1.mem p

section Push

variable {x y z : KState} {pt : PageTable} {stackbase top sp n lo hi mid : ℕ} {argv ustack : List ℕ} {src : ℕ → UInt8}
  {E : Panic → Prop}

theorem Below.refl (x : KState) (a : ℕ) : Below pt x x a a := ⟨rfl, fun _ _ => rfl, fun _ _ => rfl⟩

theorem Below.trans (h : Below pt x y mid hi) (h' : Below pt y z lo mid) (hlo : lo ≤ mid) (hhi : mid ≤ hi) :
    Below pt x z lo hi := by
  refine ⟨?_, fun b hb => ?_, fun p hp => ?_⟩
  · rw [h'.state, h.state]
  · rw [h'.seen b (by omega), h.seen b (by omega)]
  · rw [h'.frame p hp, h.frame p hp]

theorem Wrote.below (h : Wrote pt x y sp n src) (hn : sp + n ≤ hi) : Below pt x y sp hi :=
  ⟨h.state, fun b hb => h.outside b (by omega), fun p hp => h.frame p (fun _ _ => hp _)⟩

theorem post_push (h : x.2.table .new = some pt) (hap : Apart pt)
    (hstack : ∀ a, stackbase ≤ a → a < top → physOf pt a ≠ none) (hlo : stackbase ≤ sp) (hhi : sp + n ≤ top) :
    (copyout .new sp src n).post x (fun copied y => copied = true ∧ Wrote pt x y sp n src) E := by
  apply post_mono (post_copyout h hap) _ (fun _ he => he)
  rintro copied y ⟨k, hk, hw, hres⟩
  cases copied with
  | true =>
    rw [if_pos rfl] at hres
    subst hres
    exact ⟨rfl, hw⟩
  | false =>
    rw [if_neg Bool.false_ne_true] at hres
    exact absurd hres.2 (hstack _ (by omega) (by omega))

theorem post_pushArgs (h : x.2.table .new = some pt) (hap : Apart pt) (hbase : pgSize ≤ stackbase)
    (hstack : ∀ a, stackbase ≤ a → a < top → physOf pt a ≠ none) (hsp : stackbase ≤ sp) (htop : sp ≤ top)
    (halign : sp % 16 = 0)
    (hargs : ∀ arg ∈ argv, (∃ i < pgSize, (x.1.mem arg).get i = 0) ∧ ∀ a, physOf pt a ≠ some arg)
    (hcount : ustack.length + argv.length ≤ maxArg) :
    (pushArgs stackbase argv sp ustack).post x (fun o y =>
      o = none ∧ sp < stackbase + need (argv.map (fun arg => strlen (x.1.mem arg) + 1)) ∨
      ∃ sp' ptrs, o = some (sp', ustack ++ ptrs) ∧ stackbase ≤ sp' ∧ sp' % 16 = 0 ∧
        sp' + need (argv.map (fun arg => strlen (x.1.mem arg) + 1)) = sp ∧
        Placed pt y.1 sp (argv.map (fun arg => cstring (x.1.mem arg))) ptrs sp' ∧ Below pt x y sp' sp) E := by
  induction argv generalizing x sp ustack with
  | nil =>
    refine Or.inr ⟨sp, [], ?_, hsp, halign, rfl, .nil sp, .refl x sp⟩
    rw [List.append_nil]
  | cons arg argv ih =>
    obtain ⟨hnul, hout⟩ := hargs arg List.mem_cons_self
    have hlen := (get_strlen hnul).1
    rw [List.length_cons] at hcount
    unfold pushArgs
    rw [if_neg (by omega), post_bind, post_read]
    -- the page has the string, which is shorter than the page and so than what lies below `sp`
    obtain ⟨hdown, halign'⟩ := pushed_eq (n := strlen (x.1.mem arg) + 1) halign (by omega)
    have hneed : need ((arg :: argv).map (fun arg => strlen (x.1.mem arg) + 1)) =
        up16 (strlen (x.1.mem arg) + 1) + need (argv.map (fun arg => strlen (x.1.mem arg) + 1)) := rfl
    rw [hneed, List.map_cons]
    have hpush : sp - (strlen (x.1.mem arg) + 1) - (sp - (strlen (x.1.mem arg) + 1)) % 16 =
        pushed sp (strlen (x.1.mem arg) + 1) := rfl
    dsimp only
    rw [hpush, post_ite]
    have hroom := le_up16 (strlen (x.1.mem arg) + 1)
    generalize pushed sp (strlen (x.1.mem arg) + 1) = p at hdown halign'
    by_cases hlow : p < stackbase
    · rw [if_pos hlow]
      exact Or.inl ⟨rfl, by omega⟩
    rw [if_neg hlow, post_bind]
    apply post_mono (post_push h hap hstack (by omega) (by omega)) _ (fun _ he => he)
    rintro copied y ⟨rfl, hw⟩
    have hkeep : ∀ a ∈ argv, y.1.mem a = x.1.mem a := by
      intro a ha
      exact hw.frame a (fun i _ => (hargs a (List.mem_cons_of_mem _ ha)).2 _)
    have hneeds : argv.map (fun arg => strlen (y.1.mem arg) + 1) = argv.map (fun arg => strlen (x.1.mem arg) + 1) := by
      apply List.map_congr_left
      intro a ha
      rw [hkeep a ha]
    have hstrings : argv.map (fun arg => cstring (y.1.mem arg)) = argv.map (fun arg => cstring (x.1.mem arg)) := by
      apply List.map_congr_left
      intro a ha
      rw [hkeep a ha]
    have hy : y.2.table .new = some pt := by
      rw [hw.state]
      exact h
    have hargs' : ∀ a ∈ argv, (∃ i < pgSize, (y.1.mem a).get i = 0) ∧ ∀ b, physOf pt b ≠ some a := by
      intro a ha
      rw [hkeep a ha]
      exact hargs a (List.mem_cons_of_mem _ ha)
    have hcount' : (ustack ++ [p]).length + argv.length ≤ maxArg := by
      rw [List.length_append, List.length_singleton]
      omega
    have hrec : (pushArgs stackbase argv p (ustack ++ [p])).post y _ E :=
      ih hy (Nat.le_of_not_lt hlow) (by omega) halign' hargs' hcount'
    rw [hneeds, hstrings] at hrec
    apply post_mono hrec _ (fun _ he => he)
    rintro o z (⟨rfl, hlt⟩ | ⟨sp', ptrs, rfl, hge, halign'', hsum, hplaced, hbelow⟩)
    · exact Or.inl ⟨rfl, by omega⟩
    · refine Or.inr ⟨sp', p :: ptrs, ?_, hge, halign'', by omega, .cons ?_ ?_ hplaced, ?_⟩
      · rw [List.append_assoc, List.singleton_append]
      · rw [length_cstring]
        omega
      · apply seenBytes_string hnul
        intro i hi
        rw [hbelow.seen _ (by omega)]
        exact hw.inside i hi
      · exact (hw.below (by omega)).trans hbelow (by omega) (by omega)

end Push

/-! ### The change to the new image -/

structure Untouched (tf : ℕ) (m : ℕ → Page) (ws : List (ℕ × ℕ)) (x : KState) : Prop where
  trapframe : x.2.proc.trapframe = some tf
  mem : ∀ p, p ≠ tf → p ∉ x.1.freelist → x.1.mem p = m p
  words : tf ∉ x.1.freelist → ∀ w ∈ ws, (x.1.mem tf).le w.1 8 = w.2

def registers (entry sp : ℕ) : List (ℕ × ℕ) := [(48, sp % 256 ^ 8), (24, entry % 256 ^ 8), (120, sp % 256 ^ 8)]

section Commit

variable {sys : Sys} {x y : KState} {tf off v : ℕ} {m : ℕ → Page} {ws : List (ℕ × ℕ)} {p : ℕ}

theorem Untouched.of_eq (h : Untouched tf m ws x) (hfree : y.1.freelist = x.1.freelist) (hmem : y.1.mem = x.1.mem)
    (htf : y.2.proc.trapframe = x.2.proc.trapframe) : Untouched tf m ws y := by
  constructor
  · rw [htf, h.trapframe]
  · rw [hfree, hmem]
    exact h.mem
  · rw [hfree, hmem]
    exact h.words

theorem Untouched.free {f : Local → Local} (h : Untouched tf m ws x)
    (hf : (f x.2).proc.trapframe = x.2.proc.trapframe) : Untouched tf m ws (x.1.free p, f x.2) := by
  have hother : ∀ q, q ∉ p :: x.1.freelist → (x.1.free p).mem q = x.1.mem q ∧ q ∉ x.1.freelist := by
    intro q hq
    rw [List.mem_cons, not_or] at hq
    exact ⟨Function.update_of_ne hq.1 _ _, hq.2⟩
  refine ⟨hf.trans h.trapframe, fun q hne hq => ?_, fun hq w hw => ?_⟩
  · obtain ⟨hmem, hfree⟩ := hother q hq
    exact hmem.trans (h.mem q hne hfree)
  · obtain ⟨hmem, hfree⟩ := hother tf hq
    change ((x.1.free p).mem tf).le w.1 8 = w.2
    rw [hmem]
    exact h.words hfree w hw

theorem untouched_pipeclose {page : ℕ} {writable : Bool} :
    Preserves (Untouched tf m ws) (pipeclose sys page writable) (fun _ => True) := by
  apply Preserves.bind (R := fun _ => True)
  · intro x hx
    refine ⟨?_, trivial⟩
    dsimp only
    split
    · exact hx.of_eq rfl rfl rfl
    · exact hx.of_eq rfl rfl rfl
  · intro last _
    apply Preserves.ite
    · intro _
      apply Preserves.ite
      · intro _
        apply Preserves.modify
        exact fun x hx => Untouched.free (f := (·.dropPage page)) hx rfl
      · exact fun _ => .fail
    · exact fun _ => .pure trivial

theorem untouched_fileclose {f : Fin nFile} {drop : Local → Local}
    (hdrop : ∀ l, (drop l).proc.trapframe = l.proc.trapframe) :
    Preserves (Untouched tf m ws) (fileclose sys f drop) (fun _ => True) := by
  apply Preserves.bind (R := fun _ => True)
  · apply Preserves.step
    intro x o y hx hy
    refine ⟨?_, trivial⟩
    dsimp only at hy
    split_ifs at hy
    all_goals
      cases hy
      exact hx.of_eq rfl rfl (hdrop x.2)
  · intro o _
    cases o with
    | none => exact .pure trivial
    | some ff =>
      dsimp only
      split
      · exact untouched_pipeclose
      · exact preserves_fsStep (fun x _ hx => hx.of_eq rfl rfl rfl)
      · exact preserves_fsStep (fun x _ hx => hx.of_eq rfl rfl rfl)
      · exact .pure trivial

theorem untouched_steady : Steady sys (Untouched tf m ws) := by
  refine ⟨fun x page drop hdrop hx => hx.free (hdrop x.2).2, fun x f hf hx => hx.of_eq rfl rfl (hf x.2).2,
    fun x fs hx => hx.of_eq rfl rfl rfl, fun k v _ => untouched_fileclose (fun _ => rfl),
    fun x k v u hx _ _ => hx.of_eq rfl rfl rfl⟩

theorem post_setTrapframe {Q : Unit → KState → Prop} {E : Panic → Prop} (h : Untouched tf m ws x) (hoff : off + 8 ≤ pgSize)
    (hws : ∀ w ∈ ws, w.1 + 8 ≤ off ∨ off + 8 ≤ w.1)
    (hQ : ∀ y, Untouched tf m ((off, v % 256 ^ 8) :: ws) y → Q () y) : (setTrapframe off v).post x Q E := by
  rw [setTrapframe, post_modify, h.trapframe]
  apply hQ
  refine ⟨h.trapframe, fun q hne hq => ?_, fun hfree w hw => ?_⟩
  · exact (Function.update_of_ne hne _ _).trans (h.mem q hne hq)
  · dsimp only [Shared.fill]
    rw [Function.update_self]
    rcases List.mem_cons.mp hw with rfl | hw
    · exact Bytes.le_setLe v hoff
    · rw [Bytes.le_setLe_of_disjoint (hws w hw)]
      exact h.words hfree w hw

theorem post_commit (entry sp old sz : ℕ) (r : ℤ) (h : Untouched tf m [] x) :
    (do
      setTrapframe 120 sp
      vmaUnmapAll sys
      modifyLocal (·.swapTable sz)
      setTrapframe 24 entry
      setTrapframe 48 sp
      procFreepagetable sys .new old
      return r : KM ℤ).post x (fun r' y => r' = r ∧
        Untouched tf m (registers entry sp) y) (fun _ => True) := by
  have hkeep : ∀ (ws : List (ℕ × ℕ)) (g : KM Unit) (z : KState), Preserves (Untouched tf m ws) g (fun _ => True) →
      Untouched tf m ws z → g.post z (fun _ y => Untouched tf m ws y) (fun _ => True) := by
    intro ws g z hg hz
    exact post_mono (hg z hz) (fun _ _ hy => hy.1) (fun _ he => he)
  rw [post_bind]
  apply post_setTrapframe h (by decide) (by decide)
  intro y₁ h₁
  rw [post_bind]
  apply post_mono (hkeep _ _ _ untouched_steady.vmaUnmapAll h₁) _ (fun _ he => he)
  intro _ y₂ h₂
  rw [post_bind, modifyLocal, post_modify, post_bind]
  have h₃ : Untouched tf m [(120, sp % 256 ^ 8)] (y₂.1, y₂.2.swapTable sz) := h₂.of_eq rfl rfl rfl
  apply post_setTrapframe h₃ (by decide) (by simp)
  intro y₄ h₄
  rw [post_bind]
  apply post_setTrapframe h₄ (by decide) (by simp)
  intro y₅ h₅
  rw [post_bind]
  apply post_mono (hkeep _ _ _ untouched_steady.procFreepagetable h₅) _ (fun _ he => he)
  exact fun _ y₆ h₆ => ⟨rfl, h₆⟩

end Commit

/-! ### The layout -/

structure StackReady (l : Local) (pt : PageTable) (stackbase sz : ℕ) : Prop where
  table : l.new = some pt
  image : Image pt sz
  aligned : sz % pgSize = 0
  base : stackbase + pgSize = sz
  guard : pgSize ≤ stackbase
  stack : ∀ a, stackbase ≤ a → a < sz → physOf pt a ≠ none
  kernel : ∀ a, Vm.trapframe ≤ a → physOf pt a = none

structure Laid (pt : PageTable) (s : Shared) (stackbase sz : ℕ) (strings : List (List UInt8)) (sp : ℕ) (ptrs : List ℕ) : Prop where
  aligned : sp % 16 = 0
  above : stackbase ≤ sp
  count : ptrs.length = strings.length
  pointers : (List.range (strings.length + 1)).map (fun k => seenWord pt s (sp + 8 * k)) = ptrs ++ [0]
  bytes : ∀ (i p : ℕ) (str : List UInt8), ptrs[i]? = some p → strings[i]? = some str →
    seenBytes pt s p (str.length + 1) = str ++ [0]
  disjoint : (regions strings ptrs sp).Pairwise (fun r q => r.1 + r.2 ≤ q.1 ∨ q.1 + q.2 ≤ r.1)
  inside : ∀ r ∈ regions strings ptrs sp, stackbase ≤ r.1 ∧ r.1 + r.2 ≤ sz

structure Entered (y : KState) (pt : PageTable) (sz tf sp : ℕ) : Prop where
  table : y.2.proc.pagetable = some pt
  size : y.2.proc.sz = sz
  trapframe : y.2.proc.trapframe = some tf
  stackPointer : (y.1.mem tf).le 48 8 = sp
  argument : (y.1.mem tf).le 120 8 = sp

section Main

variable {sys : Sys} {s : Shared} {l : Local} {rest : Tokens} {pt pt' : PageTable} {sz stackbase tf entry : ℕ} {argv : List ℕ} {x : KState}

theorem getD_range (ptrs : List ℕ) : (List.range (ptrs.length + 1)).map (fun k => ptrs.getD k 0) = ptrs ++ [0] := by
  rw [List.range_succ, List.map_append]
  congr 1
  · apply List.ext_getElem?
    intro i
    rw [List.getElem?_map]
    by_cases hi : i < ptrs.length
    · rw [List.getElem?_range hi, Option.map_some, List.getD_eq_getElem?_getD, List.getElem?_eq_getElem hi, Option.getD_some]
    · rw [List.getElem?_eq_none (by simpa using hi), List.getElem?_eq_none (by omega), Option.map_none]
  · simp

theorem need_pushSizes (strings : List (List UInt8)) :
    need (pushSizes strings) = need (strings.map (·.length + 1)) + up16 ((strings.length + 1) * 8) := by
  simp [need, pushSizes]

theorem Placed.regions {s : Shared} {strings : List (List UInt8)} {ptrs : List ℕ} {sp' : ℕ}
    (h : Placed pt s sz strings ptrs sp') (sp : ℕ) (hsp : sp + (strings.length + 1) * 8 ≤ sp') :
    (regions strings ptrs sp).Pairwise (fun r q => r.1 + r.2 ≤ q.1 ∨ q.1 + q.2 ≤ r.1) ∧
      ∀ r ∈ regions strings ptrs sp, sp ≤ r.1 ∧ r.1 + r.2 ≤ sz := by
  have hle := h.le
  constructor
  · rw [Kernel.regions, List.pairwise_append]
    refine ⟨h.pairwise.imp Or.inr, List.pairwise_singleton _ _, fun r hr q hq => Or.inr ?_⟩
    rw [List.mem_singleton] at hq
    subst hq
    exact hsp.trans (h.within hr).1
  · intro r hr
    rw [Kernel.regions, List.mem_append, List.mem_singleton] at hr
    rcases hr with hr | rfl
    · have := h.within hr
      omega
    · dsimp only
      omega

theorem Laid.congr {s' : Shared} {strings : List (List UInt8)} {ptrs : List ℕ} {sp : ℕ} (h : Laid pt s stackbase sz strings sp ptrs)
    (hseen : ∀ a, seen pt s' a = seen pt s a) : Laid pt s' stackbase sz strings sp ptrs := by
  have hbytes : ∀ a n, seenBytes pt s' a n = seenBytes pt s a n := fun a n => seenBytes_congr (fun i _ => hseen (a + i))
  refine ⟨h.aligned, h.above, h.count, ?_, fun i p str hp hstr => ?_, h.disjoint, h.inside⟩
  · rw [← h.pointers]
    apply List.map_congr_left
    intro k _
    rw [seenWord, seenWord, hbytes]
  · rw [hbytes]
    exact h.bytes i p str hp hstr

theorem post_pushPointers {strings : List (List UInt8)} {ptrs : List ℕ} {sp' n : ℕ} (h : x.2.table .new = some pt)
    (hap : Apart pt) (hsz : sz ≤ Vm.trapframe)
    (hstack : ∀ a, stackbase ≤ a → a < sz → physOf pt a ≠ none) (hplaced : Placed pt x.1 sz strings ptrs sp')
    (hn : n = (strings.length + 1) * 8) (hroom : n ≤ sp') (halign : sp' % 16 = 0) (hlow : stackbase ≤ pushed sp' n) :
    (copyout .new (pushed sp' n) (wordsByte ptrs) n).post x (fun copied z => copied = true ∧
      Laid pt z.1 stackbase sz strings (pushed sp' n) ptrs ∧ z.2 = x.2) (fun _ => True) := by
  obtain ⟨hdown, halign'⟩ := pushed_eq halign hroom
  have hup := le_up16 n
  have hle := hplaced.le
  generalize pushed sp' n = sp at hdown halign' hlow
  subst hn
  apply post_mono (post_push h hap hstack hlow (by omega)) _ (fun _ he => he)
  rintro copied z ⟨hcopied, hw⟩
  have hplaced' := hplaced.keep (fun a ha => hw.outside a (by omega))
  have hregions := hplaced'.regions sp (by omega)
  refine ⟨hcopied, ⟨halign', hlow, hplaced.length_eq, ?_, fun i p str hp hstr => hplaced'.bytes hp hstr, hregions.1,
    fun r hr => ?_⟩, ?_⟩
  · rw [← hplaced.length_eq, ← getD_range]
    apply List.map_congr_left
    intro k hk
    rw [List.mem_range, hplaced.length_eq] at hk
    apply seenWord_eq hw.inside hk
    have htop : sz < 2 ^ 64 := hsz.trans_lt (by decide)
    exact (hplaced.getD_le k).trans_lt htop
  · have := hregions.2 r hr
    omega
  · rw [hw.state]

theorem post_giveUp (strings : List (List UInt8)) (h : pgSize < need (pushSizes strings)) :
    (do
      procFreepagetable sys .new sz
      return -1 : KM ℤ).post x (fun r _ => r = -1 ∧ pgSize < need (pushSizes strings)) (fun _ => True) := by
  rw [post_bind]
  exact post_mono (post_true _) (fun _ _ _ => ⟨rfl, h⟩) (fun _ he => he)

def Ends (pt : PageTable) (stackbase sz tf entry : ℕ) (strings : List (List UInt8)) (r : ℤ) (y : KState) : Prop :=
  r = -1 ∧ pgSize < need (pushSizes strings) ∨
    ∃ sp ptrs z, r = strings.length ∧ sp ≤ sz ∧ Laid pt z stackbase sz strings sp ptrs ∧ Untouched tf z.mem (registers entry sp) y

theorem post_enterImage {strings : List (List UInt8)} {ptrs : List ℕ} {old sp : ℕ} (h : x.2.table .new = some pt)
    (hap : Apart pt) (hsz : sz ≤ Vm.trapframe) (hbase : stackbase + pgSize = sz)
    (hstack : ∀ a, stackbase ≤ a → a < sz → physOf pt a ≠ none) (htf : x.2.proc.trapframe = some tf) (hplaced : Placed pt x.1 sz strings ptrs sp) (hroom : (strings.length + 1) * 8 ≤ sp)
    (halign : sp % 16 = 0) (hsum : sp + need (strings.map (·.length + 1)) = sz) :
    (enterImage sys entry old sz stackbase sp ptrs).post x (Ends pt stackbase sz tf entry strings) (fun _ => True) := by
  have hpush : sp - (strings.length + 1) * 8 - (sp - (strings.length + 1) * 8) % 16 =
      pushed sp ((strings.length + 1) * 8) := rfl
  have hdown := (pushed_eq (n := (strings.length + 1) * 8) halign hroom).1
  unfold enterImage
  rw [hplaced.length_eq]
  dsimp only
  rw [hpush, post_ite]
  by_cases hlow : pushed sp ((strings.length + 1) * 8) < stackbase
  · rw [if_pos hlow]
    apply post_mono (post_giveUp strings _) (fun _ _ hr => Or.inl hr) (fun _ he => he)
    rw [need_pushSizes]
    omega
  · rw [if_neg hlow, post_bind]
    apply post_mono (post_pushPointers h hap hsz hstack hplaced rfl hroom halign (by omega)) _ (fun _ he => he)
    rintro copied z ⟨rfl, hlaid, hz⟩
    have hun : Untouched tf z.1.mem [] z := by
      refine ⟨?_, fun _ _ _ => rfl, fun _ w hw => absurd hw List.not_mem_nil⟩
      rw [hz, htf]
    rw [if_pos rfl]
    apply post_mono (post_commit entry _ old sz strings.length hun) _ (fun _ he => he)
    rintro r z' ⟨rfl, hun'⟩
    exact Or.inr ⟨_, ptrs, z.1, rfl, by omega, hlaid, hun'⟩

theorem post_pushStack {old : ℕ} (h : x.2.table .new = some pt) (hap : Apart pt) (hsz : sz ≤ Vm.trapframe)
    (haligned : sz % pgSize = 0) (hbase : stackbase + pgSize = sz) (hguard : pgSize ≤ stackbase)
    (hstack : ∀ a, stackbase ≤ a → a < sz → physOf pt a ≠ none) (htf : x.2.proc.trapframe = some tf)
    (hargs : ∀ arg ∈ argv, (∃ i < pgSize, (x.1.mem arg).get i = 0) ∧ ∀ a, physOf pt a ≠ some arg)
    (hcount : argv.length ≤ maxArg - 1) :
    (pushStack sys argv entry old sz).post x
      (Ends pt stackbase sz tf entry (argv.map (fun arg => cstring (x.1.mem arg)))) (fun _ => True) := by
  have hneed : need (argv.map (fun arg => strlen (x.1.mem arg) + 1)) =
      need ((argv.map (fun arg => cstring (x.1.mem arg))).map (·.length + 1)) := by
    rw [List.map_map]
    simp only [Function.comp_def, length_cstring]
  have hsmall : (argv.length + 1) * 8 ≤ pgSize := by
    simp only [maxArg, pgSize] at *
    omega
  have hdiv : sz % 16 = 0 := by
    simp only [pgSize] at haligned
    omega
  have hsub : sz - pgSize = stackbase := by omega
  have hpush : (pushArgs stackbase argv sz []).post x _ (fun _ => True) :=
    post_pushArgs h hap hguard hstack (by omega) (le_refl _) hdiv hargs (by
      rw [List.length_nil]
      omega)
  rw [hneed] at hpush
  have hlength : (argv.map (fun arg => cstring (x.1.mem arg))).length = argv.length := List.length_map _
  generalize argv.map (fun arg => cstring (x.1.mem arg)) = strings at hpush hlength
  rw [pushStack, hsub, post_bind]
  apply post_mono hpush _ (fun _ he => he)
  rintro o y (⟨rfl, hlt⟩ | ⟨sp, ptrs, rfl, hge, halign, hsum, hplaced, hbelow⟩)
  · apply post_mono (post_giveUp strings _) (fun _ _ hr => Or.inl hr) (fun _ he => he)
    rw [need_pushSizes]
    omega
  · have hy : y.2 = x.2 := by rw [hbelow.state]
    rw [List.nil_append]
    apply post_enterImage (hy ▸ h) hap hsz hbase hstack (hy ▸ htf) hplaced _ halign hsum
    rw [hlength]
    omega

namespace StackReady

theorem physOf_lt (h : StackReady l pt stackbase sz) {a p : ℕ} (ha : physOf pt a = some p) :
    a < Vm.trapframe ∧ ∃ pte, pt.leaf a = some pte ∧ pte.pa = p := by
  have hlt : a < Vm.trapframe := by
    by_contra hge
    rw [h.kernel a (Nat.le_of_not_lt hge)] at ha
    cases ha
  refine ⟨hlt, ?_⟩
  rw [physOf, if_pos (hlt.trans (by decide))] at ha
  cases hleaf : pt.leaf a with
  | none =>
    rw [hleaf] at ha
    cases ha
  | some pte =>
    rw [hleaf, Option.bind_some] at ha
    split_ifs at ha
    exact ⟨pte, rfl, Option.some.inj ha⟩

theorem mem_pages (h : StackReady l pt stackbase sz) {a p : ℕ} (ha : physOf pt a = some p) : p ∈ pt.pages := by
  obtain ⟨hlt, pte, hleaf, rfl⟩ := h.physOf_lt ha
  exact PageTable.pa_mem_pages hleaf hlt

theorem apart (h : StackReady l pt stackbase sz) (hnodup : pt.pages.Nodup) : Apart pt := by
  intro a b p ha hb
  obtain ⟨hlt, pte, hleaf, hpa⟩ := h.physOf_lt ha
  obtain ⟨hlt', pte', hleaf', hpa'⟩ := h.physOf_lt hb
  exact leaf_inj hnodup hleaf hleaf' hlt hlt' (hpa.trans hpa'.symm)

end StackReady

end Main

section Example

def prepareStack : KM Bool := do
  let made ← procPagetable bootSys 524461
  if made then
    let sz ← uvmalloc bootSys .new 0 8192
    if sz = 0 then return false
    else
      uvmclear .new 0
      match ← kalloc with
      | none => return false
      | some page =>
        fillPage page (Bytes.patch (fun _ => 0) 0 2 (fun i => UInt8.ofNat (104 + i)))
        return true
  else return false

theorem wp_prepareStack : wp (ledger bootSys True) (fun _ => True) prepareStack firstRun.2 (fun r l => r = true →
    ∃ pt page, l = { firstRun.2 with new := some pt, pages := {page} } ∧ Image pt 8192) := by
  have lax : ¬ True → ∀ e : Panic, True := fun _ _ => trivial
  have hfalse : ∀ l : Local, false = true →
      ∃ pt page, l = { firstRun.2 with new := some pt, pages := {page} } ∧ Image pt 8192 := by
    intro l hf
    cases hf
  rw [prepareStack, wp_bind]
  apply wp_procPagetable lax rfl
  · exact hfalse _
  intro pt₁ him
  rw [if_pos rfl, wp_bind]
  apply wp_uvmalloc lax rfl him.framed.trapframe him.le (Or.inl trivial)
  · intro hlt
    omega
  · intro pt₂ hle htf hx
    have him₂ : Image pt₂ 8192 := him.extend hx hle htf
    rw [if_neg (by decide), wp_bind, setTable_setTable]
    apply wp_uvmclear rfl (by decide) (him₂.mapped 0 (by decide))
    intro pt₃ hiff hpages
    rw [wp_bind, setTable_setTable]
    apply wp_kalloc
    · exact hfalse _
    · intro page _
      dsimp only
      rw [wp_bind]
      apply wp_modify
      intro s rest hs
      refine ⟨hs.withPages _ s.fs rfl, fun _ => ⟨pt₃, page, rfl, him₂.of_iff hiff hpages⟩⟩
  · intro pt₂ _
    rw [if_pos rfl]
    exact hfalse _

def stackReady : KState := afterProg prepareStack firstRun

theorem stackReady_returns : prepareStack.returns firstRun true stackReady := returns_afterProg (by decide +kernel)

def stackTable : PageTable := stackReady.2.new.getD (.empty 0)

theorem stackReady_local : ∃ page, stackReady.2 = { firstRun.2 with new := some stackTable, pages := {page} } ∧
    Image stackTable 8192 := by
  obtain ⟨pt, page, hl, him⟩ := (post_returns (post_of_wp wp_prepareStack firstRun_kinv) stackReady_returns).2 rfl
  have hpt : stackTable = pt := by rw [stackTable, hl, Option.getD_some]
  rw [hpt]
  exact ⟨page, hl, him⟩

theorem stackReady_kinv : KInv bootSys True stackReady.1 (stackReady.2.tokens + 0) :=
  (post_returns (post_of_wp wp_prepareStack firstRun_kinv) stackReady_returns).1

theorem stackReady_proc : stackReady.2.proc = firstRun.2.proc := by
  obtain ⟨page, hl, -⟩ := stackReady_local
  rw [hl]

def oneArg : List ℕ := [524469]

theorem length_oneArg : oneArg.length = 1 := rfl

theorem oneArg_strings : oneArg.map (fun arg => cstring (stackReady.1.mem arg)) = [[104, 105]] := by decide +kernel

theorem oneArg_pages : ∀ arg ∈ oneArg, arg ∈ stackReady.2.pages ∧ (stackReady.1.mem arg).get 2 = 0 := by decide +kernel

theorem stackReady_stack : physOf stackTable 4096 = some 524468 ∧ physOf stackTable Vm.trapframe = none ∧
    physOf stackTable Vm.trampoline = none := by decide +kernel

-- the run of the example is not to be evaluated when its statement is elaborated
attribute [irreducible] stackReady oneArg

theorem stackReady_ready : StackReady stackReady.2 stackTable 4096 8192 := by
  obtain ⟨page, hl, him⟩ := stackReady_local
  obtain ⟨hstack, htf, htramp⟩ := stackReady_stack
  refine ⟨by rw [hl], him, by decide, by decide, by decide, fun a hlo hhi => ?_, fun a ha => ?_⟩
  · rw [physOf_of_div (b := 4096), hstack]
    · exact Option.some_ne_none _
    · simp only [pgSize] at *
      omega
  · by_cases hmax : a < maxVa
    · by_cases hlt : a < Vm.trampoline
      · rw [physOf_of_div (b := Vm.trapframe), htf]
        simp only [Vm.trapframe, Vm.trampoline, maxVa, pgSize] at *
        omega
      · rw [physOf_of_div (b := Vm.trampoline), htramp]
        simp only [Vm.trapframe, Vm.trampoline, maxVa, pgSize] at *
        omega
    · rw [physOf, if_neg hmax]

end Example

end Xv6.Kernel
