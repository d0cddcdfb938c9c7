import Xv6.Kernel.AddressSpace
import Xv6.Kernel.Residency

namespace Xv6.Kernel

open Lib Vm Prog

/-! ### The user's memory under a page table -/

def physOf (pt : PageTable) (va : ℕ) : Option ℕ :=
  if va < maxVa then (pt.leaf va).bind (fun pte => if pte.u then some pte.pa else none) else none

def seen (pt : PageTable) (s : Shared) (a : ℕ) : Option UInt8 := (physOf pt a).map (fun pa => (s.mem pa).get (a % pgSize))

def seenBytes (pt : PageTable) (s : Shared) (a n : ℕ) : List UInt8 := (List.range n).map (fun i => (seen pt s (a + i)).getD 0)

def Reaches (pt : PageTable) (a n : ℕ) : Prop := ∀ i < n, physOf pt (a + i) ≠ none

def Apart (pt : PageTable) : Prop :=
  ∀ a b p, physOf pt a = some p → physOf pt b = some p → a / pgSize = b / pgSize

structure Wrote (pt : PageTable) (x y : KState) (a n : ℕ) (src : ℕ → UInt8) : Prop where
  state : y = ({ x.1 with mem := y.1.mem }, x.2)
  inside : ∀ i < n, seen pt y.1 (a + i) = some (src i)
  outside : ∀ b, ¬ (a ≤ b ∧ b < a + n) → seen pt y.1 b = seen pt x.1 b
  frame : ∀ p, (∀ i < n, physOf pt (a + i) ≠ some p) → y.1.mem p = x.1.mem p

def scanPage (page : Page) : ℕ → ℕ → ℕ → List UInt8 → Bool × ℕ × List UInt8
  | 0, _, max, dst => (false, max, dst)
  | n + 1, p, max, dst =>
    if page.get p = 0 then (true, max, dst ++ [0]) else scanPage page n (p + 1) (max - 1) (dst ++ [page.get p])

def scanLoop (t : TableRef) : ℕ → ℕ → ℕ → List UInt8 → KM (Bool × List UInt8)
  | 0, _, _, dst => return (false, dst)
  | fuel + 1, srcva, max, dst => do
    if max = 0 then return (false, dst)
    else
      match ← walkaddr t (pgRoundDown srcva) with
      | none => return (false, dst)
      | some pa =>
        let page ← .read (fun x => x.1.mem pa)
        let (gotNull, max, dst) := scanPage page (min (pgSize - srcva % pgSize) max) (srcva % pgSize) max dst
        if gotNull then return (true, dst) else scanLoop t fuel (pgRoundDown srcva + pgSize) max dst

def copyinstrBytes (t : TableRef) (srcva max : ℕ) : KM (Bool × List UInt8) := scanLoop t max srcva max []

section

variable {x y z : KState} {s : Shared} {t : TableRef} {pt : PageTable} {a b n m va max : ℕ} {src : ℕ → UInt8}
  {acc dst : List UInt8} {E : Panic → Prop}

theorem physOf_of_div (h : a / pgSize = b / pgSize) : physOf pt a = physOf pt b := by
  have hmax : maxVa = 67108864 * pgSize ∧ maxVa < 2 ^ 39 := by decide
  have hiff : a < maxVa ↔ b < maxVa := by
    simp only [pgSize] at *
    omega
  unfold physOf
  by_cases ha : a < maxVa
  · rw [if_pos ha, if_pos (hiff.mp ha), leaf_eq_of_div (by omega) (by omega) h]
  · rw [if_neg ha, if_neg (fun hb => ha (hiff.mpr hb))]

theorem round_div (a : ℕ) : pgRoundDown a / pgSize = a / pgSize := by
  rw [pgRoundDown, Nat.mul_div_cancel _ (by decide)]

theorem seen_eq_none_iff : seen pt s a = none ↔ physOf pt a = none := Option.map_eq_none_iff

theorem Reaches.of_wrote (h : Wrote pt x y a n src) : Reaches pt a n := by
  intro i hi hnone
  have := h.inside i hi
  rw [seen_eq_none_iff.mpr hnone] at this
  cases this

theorem Wrote.refl (x : KState) (a : ℕ) (src : ℕ → UInt8) : Wrote pt x x a 0 src :=
  ⟨rfl, fun i hi => absurd hi (Nat.not_lt_zero i), fun _ _ => rfl, fun _ _ => rfl⟩

theorem Wrote.trans (h : Wrote pt x y a m src) (h' : Wrote pt y z (a + m) n (fun i => src (m + i))) :
    Wrote pt x z a (m + n) src := by
  refine ⟨?_, fun i hi => ?_, fun b hb => ?_, fun p hp => ?_⟩
  · rw [h'.state, h.state]
  · by_cases hlt : i < m
    · rw [h'.outside _ (by omega), h.inside i hlt]
    · have hin := h'.inside (i - m) (by omega)
      rw [show a + m + (i - m) = a + i by omega, show m + (i - m) = i by omega] at hin
      exact hin
  · rw [h'.outside b (by omega), h.outside b (by omega)]
  · rw [h'.frame p, h.frame p]
    · exact fun i hi => hp i (by omega)
    · intro i hi
      rw [Nat.add_assoc]
      exact hp (m + i) (by omega)

theorem Wrote.page {pa : ℕ} (hap : Apart pt) (hpa : physOf pt a = some pa) (hn : a % pgSize + n ≤ pgSize) :
    Wrote pt x (x.1.fill pa ((x.1.mem pa).patch (a % pgSize) n src), x.2) a n src := by
  have hsame : ∀ i < n, (a + i) / pgSize = a / pgSize ∧ (a + i) % pgSize = a % pgSize + i := by
    intro i hi
    simp only [pgSize] at *
    omega
  refine ⟨rfl, fun i hi => ?_, fun b hb => ?_, fun p hp => ?_⟩
  · obtain ⟨hdiv, hmod⟩ := hsame i hi
    rw [seen, physOf_of_div hdiv, hpa, Option.map_some, hmod]
    simp only [Shared.fill, Function.update_self]
    rw [Bytes.get_patch_of_mem (by omega) (by omega), Nat.add_sub_cancel_left]
  · unfold seen
    cases hb' : physOf pt b with
    | none => rfl
    | some p =>
      rw [Option.map_some, Option.map_some]
      congr 1
      simp only [Shared.fill]
      by_cases hp : p = pa
      · subst hp
        have hdiv := hap b a p hb' hpa
        rw [Function.update_self, Bytes.get_patch_of_not_mem]
        simp only [pgSize] at *
        omega
      · rw [Function.update_of_ne hp]
  · cases n with
    | zero =>
      have hnone : (x.1.mem pa).patch (a % pgSize) 0 src = x.1.mem pa := by
        apply Bytes.ext_get
        intro i _
        exact Bytes.get_patch_of_not_mem (by omega)
      simp only [Shared.fill, hnone, Function.update_eq_self]
    | succ n =>
      have hne : p ≠ pa := by
        rintro rfl
        exact hp 0 (Nat.succ_pos n) hpa
      exact Function.update_of_ne hne _ _

/-! ### The copies -/

theorem post_walkaddr {Q : Option ℕ → KState → Prop} (h : x.2.table t = some pt) (hQ : Q (physOf pt va) x) :
    (walkaddr t va).post x Q E := by
  rw [walkaddr, post_ite]
  by_cases hva : va < maxVa
  · rw [if_neg (by omega), post_bind]
    rw [physOf, if_pos hva] at hQ
    apply post_walkAt h hva
    cases hn : pt.node0 va with
    | none =>
      rw [PageTable.leaf, hn] at hQ
      exact hQ
    | some node =>
      rw [Option.isSome_some, if_pos rfl, post_bind, pteAt, post_bind, table, post_read, h, Option.getD_some, post_pure]
      cases hl : pt.leaf va with
      | none =>
        rw [hl] at hQ
        exact hQ
      | some pte =>
        rw [hl] at hQ
        exact hQ
  · rw [if_pos (by omega)]
    rw [physOf, if_neg hva] at hQ
    exact hQ

theorem post_copyoutLoop {fuel tot : ℕ} (h : x.2.table t = some pt) (hap : Apart pt) (hfuel : n ≤ fuel) :
    (copyoutLoop t src fuel a n tot).post x (fun copied y => ∃ k ≤ n, Wrote pt x y a k (fun i => src (tot + i)) ∧
      if copied then k = n else k < n ∧ physOf pt (a + k) = none) E := by
  induction fuel generalizing x a n tot with
  | zero =>
    obtain rfl := Nat.le_zero.mp hfuel
    exact ⟨0, le_refl _, Wrote.refl x a _, rfl⟩
  | succ fuel ih =>
    unfold copyoutLoop
    by_cases hn : n = 0
    · subst hn
      rw [if_pos rfl]
      exact ⟨0, le_refl _, Wrote.refl x a _, rfl⟩
    rw [if_neg hn, post_bind]
    apply post_walkaddr h
    rw [physOf_of_div (round_div a)]
    cases hpa : physOf pt a with
    | none => exact ⟨0, Nat.zero_le _, Wrote.refl x a _, Nat.pos_of_ne_zero hn, hpa⟩
    | some pa =>
      obtain ⟨m, hm, hpos, hle, hpage, hend, hnext⟩ := turn (a := a) (Nat.pos_of_ne_zero hn)
      dsimp only
      rw [hm, post_bind, storeBytes, post_modify]
      have hfirst : Wrote pt x (x.1.fill pa ((x.1.mem pa).patch (a % pgSize) m (fun i => src (tot + i))), x.2) a m
          (fun i => src (tot + i)) := Wrote.page hap hpa hpage
      by_cases hlast : m < n
      · rw [hnext hlast]
        have hrec : (copyoutLoop t src fuel (a + m) (n - m) (tot + m)).post
            (x.1.fill pa ((x.1.mem pa).patch (a % pgSize) m (fun i => src (tot + i))), x.2) _ E := ih h (by omega)
        apply post_mono hrec _ (fun _ he => he)
        rintro copied y ⟨k, hk, hwrote, hres⟩
        refine ⟨m + k, by omega, hfirst.trans ?_, ?_⟩
        · simp only [← Nat.add_assoc]
          exact hwrote
        · cases copied with
          | true =>
            rw [if_pos rfl] at hres ⊢
            omega
          | false =>
            rw [if_neg (by decide)] at hres ⊢
            rw [← Nat.add_assoc]
            exact ⟨by omega, hres.2⟩
      · obtain rfl : m = n := by omega
        rw [Nat.sub_self]
        cases fuel <;> exact ⟨m, le_refl _, hfirst, rfl⟩

theorem post_copyout (h : x.2.table t = some pt) (hap : Apart pt) :
    (copyout t a src n).post x (fun copied y => ∃ k ≤ n, Wrote pt x y a k src ∧
      if copied then k = n else k < n ∧ physOf pt (a + k) = none) E := by
  have hloop : (copyoutLoop t src n a n 0).post x _ E := post_copyoutLoop h hap (le_refl n)
  simp only [Nat.zero_add] at hloop
  exact hloop

theorem seenBytes_add : seenBytes pt s a (m + n) = seenBytes pt s a m ++ seenBytes pt s (a + m) n := by
  rw [seenBytes, List.range_add, List.map_append, List.map_map]
  congr 1
  apply List.map_congr_left
  intro i _
  simp only [Function.comp_apply, Nat.add_assoc]

theorem load_eq {pa : ℕ} (hpa : physOf pt a = some pa) (hn : a % pgSize + n ≤ pgSize) :
    (List.range n).map (fun i => (s.mem pa).get (a % pgSize + i)) = seenBytes pt s a n := by
  apply List.map_congr_left
  intro i hi
  rw [List.mem_range] at hi
  have hsame : (a + i) / pgSize = a / pgSize ∧ (a + i) % pgSize = a % pgSize + i := by
    simp only [pgSize] at *
    omega
  rw [seen, physOf_of_div hsame.1, hpa, Option.map_some, Option.getD_some, hsame.2]

theorem Reaches.add (h : Reaches pt a (m + n)) : Reaches pt (a + m) n := by
  intro i hi
  rw [Nat.add_assoc]
  exact h (m + i) (by omega)

theorem reaches_page {pa : ℕ} (hpa : physOf pt a = some pa) (hn : a % pgSize + n ≤ pgSize) : Reaches pt a n := by
  intro i hi
  rw [physOf_of_div (b := a), hpa]
  · exact Option.some_ne_none pa
  · simp only [pgSize] at *
    omega

theorem post_copyinLoop {fuel : ℕ} (h : x.2.table t = some pt) (hfuel : n ≤ fuel) :
    (copyinLoop t fuel a n acc).post x (fun r y => y = x ∧ (Reaches pt a n → r = some (acc ++ seenBytes pt x.1 a n)) ∧
      (¬ Reaches pt a n → r = none)) E := by
  have hzero : ∀ acc, n = 0 → x = x ∧ (Reaches pt a n → some acc = some (acc ++ seenBytes pt x.1 a n)) ∧
      (¬ Reaches pt a n → some acc = none) := by
    rintro acc rfl
    refine ⟨rfl, fun _ => ?_, fun hn => absurd (fun i hi => absurd hi (Nat.not_lt_zero i)) hn⟩
    rw [show seenBytes pt x.1 a 0 = [] from rfl, List.append_nil]
  induction fuel generalizing a n acc with
  | zero => exact hzero acc (Nat.le_zero.mp hfuel)
  | succ fuel ih =>
    unfold copyinLoop
    by_cases hn : n = 0
    · rw [if_pos hn]
      exact hzero acc hn
    rw [if_neg hn, post_bind]
    apply post_walkaddr h
    rw [physOf_of_div (round_div a)]
    cases hpa : physOf pt a with
    | none =>
      refine ⟨rfl, fun hr => ?_, fun _ => rfl⟩
      exact absurd hpa (hr 0 (Nat.pos_of_ne_zero hn))
    | some pa =>
      obtain ⟨m, hm, hpos, hle, hpage, hend, hnext⟩ := turn (a := a) (Nat.pos_of_ne_zero hn)
      dsimp only
      rw [hm, post_bind, loadBytes, post_read, load_eq hpa hpage]
      have hsplit : seenBytes pt x.1 a n = seenBytes pt x.1 a m ++ seenBytes pt x.1 (a + m) (n - m) := by
        rw [← seenBytes_add, Nat.add_sub_cancel' hle]
      have hreach : Reaches pt a n ↔ Reaches pt (a + m) (n - m) := by
        constructor
        · intro hr
          apply Reaches.add
          rwa [Nat.add_sub_cancel' hle]
        · intro hr i hi
          by_cases hlt : i < m
          · exact reaches_page hpa hpage i hlt
          · have := hr (i - m) (by omega)
            rwa [show a + m + (i - m) = a + i by omega] at this
      rw [hsplit, hreach, ← List.append_assoc]
      by_cases hlast : m < n
      · rw [hnext hlast]
        apply ih (by omega)
        rintro acc' hz
        omega
      · obtain rfl : m = n := by omega
        rw [Nat.sub_self]
        have hdone : x = x ∧ (Reaches pt (a + m) 0 → some (acc ++ seenBytes pt x.1 a m) =
            some (acc ++ seenBytes pt x.1 a m ++ seenBytes pt x.1 (a + m) 0)) ∧
            (¬ Reaches pt (a + m) 0 → some (acc ++ seenBytes pt x.1 a m) = none) := by
          refine ⟨rfl, fun _ => ?_, fun hn => absurd (fun i hi => absurd hi (Nat.not_lt_zero i)) hn⟩
          rw [show seenBytes pt x.1 (a + m) 0 = [] from rfl, List.append_nil]
        cases fuel <;> exact hdone

/-! ### Strings -/

theorem scanPage_eq (page : Page) (n p max : ℕ) (dst : List UInt8) :
    scanPage page n p max dst =
      if 0 ∈ (List.range n).map (fun i => page.get (p + i)) then
        (true, max - (((List.range n).map (fun i => page.get (p + i))).takeWhile (· ≠ 0)).length,
          dst ++ ((List.range n).map (fun i => page.get (p + i))).takeWhile (· ≠ 0) ++ [0])
      else (false, max - n, dst ++ (List.range n).map (fun i => page.get (p + i))) := by
  induction n generalizing p max dst with
  | zero => simp [scanPage]
  | succ n ih =>
    have hcons : (List.range (n + 1)).map (fun i => page.get (p + i)) =
        page.get p :: (List.range n).map (fun i => page.get (p + 1 + i)) := by
      rw [List.range_succ_eq_map, List.map_cons, List.map_map]
      congr 1
      apply List.map_congr_left
      intro i _
      simp only [Function.comp_apply, Nat.succ_eq_add_one, Nat.add_assoc, Nat.add_comm 1 i]
    rw [hcons, scanPage]
    by_cases hzero : page.get p = 0
    · rw [if_pos hzero, hzero]
      simp
    · rw [if_neg hzero, ih]
      simp only [List.mem_cons, Ne.symm hzero, false_or, List.takeWhile_cons, ne_eq, hzero, not_false_eq_true,
        decide_true, ↓reduceIte, List.length_cons, List.append_assoc, List.cons_append, List.nil_append]
      split_ifs
      · rw [Nat.sub_sub, Nat.add_comm 1]
      · rw [Nat.sub_sub, Nat.add_comm 1]

theorem bind_bind {α β γ : Type} (p : KM α) (g : α → KM β) (k : β → KM γ) : p >>= g >>= k = p >>= fun a => g a >>= k := by
  change Prog.bind (Prog.bind p g) k = Prog.bind p (fun a => Prog.bind (g a) k)
  induction p with
  | ret a => rfl
  | fail e => rfl
  | act f m ih =>
    simp only [Prog.bind]
    congr 1
    funext s
    exact ih s
  | choose p q ihp ihq => simp only [Prog.bind, ihp, ihq]

theorem copyinstrLoop_eq {fuel : ℕ} : copyinstrLoop t fuel a max acc =
    scanLoop t fuel a max acc >>= fun r => pure (if r.1 then some r.2.dropLast else none) := by
  induction fuel generalizing a max acc with
  | zero => rfl
  | succ fuel ih =>
    unfold copyinstrLoop scanLoop
    by_cases hmax : max = 0
    · rw [if_pos hmax, if_pos hmax]
      rfl
    rw [if_neg hmax, if_neg hmax, bind_bind]
    congr 1
    funext o
    cases o with
    | none => rfl
    | some pa =>
      dsimp only
      rw [bind_bind]
      change Prog.act id _ = Prog.act id _
      congr 1
      funext x
      dsimp only [Prog.bind]
      rw [scanPage_eq]
      by_cases hzero : 0 ∈ (List.range (min (pgSize - a % pgSize) max)).map (fun i => (x.1.mem pa).get (a % pgSize + i))
      · rw [if_pos hzero, if_pos hzero]
        change _ = Pure.pure (some (List.dropLast (acc ++ _ ++ [0])))
        rw [List.dropLast_concat]
      · rw [if_neg hzero, if_neg hzero]
        exact ih

theorem first_zero {l : List UInt8} (h : 0 ∈ l) :
    ∃ k < l.length, l.takeWhile (· ≠ 0) = l.take k ∧ 0 ∉ l.take k ∧ l[k]? = some 0 := by
  induction l with
  | nil => cases h
  | cons c l ih =>
    by_cases hc : c = 0
    · subst hc
      exact ⟨0, by simp, by simp, by simp, rfl⟩
    · obtain ⟨k, hk, htake, hnot, hget⟩ := ih (by simpa [Ne.symm hc] using h)
      refine ⟨k + 1, by simpa using hk, ?_, ?_, hget⟩
      · rw [List.takeWhile_cons_of_pos (by simpa using hc), htake, List.take_succ_cons]
      · rw [List.take_succ_cons, List.mem_cons, not_or]
        exact ⟨Ne.symm hc, hnot⟩

theorem length_seenBytes : (seenBytes pt s a n).length = n := by
  rw [seenBytes, List.length_map, List.length_range]

theorem take_seenBytes (h : m ≤ n) : (seenBytes pt s a n).take m = seenBytes pt s a m := by
  rw [← Nat.add_sub_cancel' h, seenBytes_add, List.take_left' length_seenBytes]

theorem seen_of_get (hr : Reaches pt a n) (hm : m < n) {c : UInt8} (hc : (seenBytes pt s a n)[m]? = some c) :
    seen pt s (a + m) = some c := by
  rw [seenBytes, List.getElem?_map, List.getElem?_range hm, Option.map_some, Option.some.injEq] at hc
  obtain ⟨d, hd⟩ := Option.ne_none_iff_exists'.mp (fun hn => hr m hm (seen_eq_none_iff (s := s).mp hn))
  rw [hd] at hc ⊢
  rw [← hc]
  rfl

theorem post_scanLoop {fuel : ℕ} (h : x.2.table t = some pt) (hfuel : max ≤ fuel) :
    (scanLoop t fuel a max dst).post x (fun r y => y = x ∧ ∃ k ≤ max, Reaches pt a k ∧ 0 ∉ seenBytes pt x.1 a k ∧
      if r.1 then k < max ∧ seen pt x.1 (a + k) = some 0 ∧ r.2 = dst ++ seenBytes pt x.1 a k ++ [0]
      else (k = max ∨ physOf pt (a + k) = none) ∧ r.2 = dst ++ seenBytes pt x.1 a k) E := by
  have hstop : ∀ a max (dst : List UInt8), max = 0 ∨ physOf pt a = none → x = x ∧ ∃ k ≤ max, Reaches pt a k ∧ 0 ∉ seenBytes pt x.1 a k ∧
      if (false, dst).1 then k < max ∧ seen pt x.1 (a + k) = some 0 ∧ (false, dst).2 = dst ++ seenBytes pt x.1 a k ++ [0]
      else (k = max ∨ physOf pt (a + k) = none) ∧ (false, dst).2 = dst ++ seenBytes pt x.1 a k := by
    intro a max dst hend
    refine ⟨rfl, 0, Nat.zero_le _, fun i hi => absurd hi (Nat.not_lt_zero i), List.not_mem_nil, ?_⟩
    rw [if_neg Bool.false_ne_true]
    exact ⟨hend.imp_left Eq.symm, (List.append_nil _).symm⟩
  induction fuel generalizing a max dst with
  | zero => exact hstop a max dst (Or.inl (Nat.le_zero.mp hfuel))
  | succ fuel ih =>
    unfold scanLoop
    by_cases hmax : max = 0
    · rw [if_pos hmax]
      exact hstop a max dst (Or.inl hmax)
    rw [if_neg hmax, post_bind]
    apply post_walkaddr h
    rw [physOf_of_div (round_div a)]
    cases hpa : physOf pt a with
    | none => exact hstop a max dst (Or.inr hpa)
    | some pa =>
      obtain ⟨m, hm, hpos, hle, hpage, hend, hnext⟩ := turn (a := a) (Nat.pos_of_ne_zero hmax)
      have hreach := reaches_page hpa hpage
      dsimp only
      rw [hm, post_bind, post_read, scanPage_eq, load_eq hpa hpage]
      by_cases hzero : 0 ∈ seenBytes pt x.1 a m
      · rw [if_pos hzero]
        obtain ⟨k, hk, htake, hnot, hget⟩ := first_zero hzero
        rw [length_seenBytes] at hk
        rw [take_seenBytes hk.le] at htake hnot
        refine ⟨rfl, k, by omega, fun i hi => hreach i (by omega), hnot, ?_⟩
        rw [if_pos rfl, htake]
        exact ⟨by omega, seen_of_get hreach hk hget, rfl⟩
      · rw [if_neg hzero]
        dsimp only
        rw [if_neg Bool.false_ne_true]
        by_cases hlast : m < max
        · rw [hnext hlast]
          have hrec : (scanLoop t fuel (a + m) (max - m) (dst ++ seenBytes pt x.1 a m)).post x _ E := ih (by omega)
          apply post_mono hrec _ (fun _ he => he)
          rintro r y ⟨rfl, k, hk, hr, hnot, hres⟩
          refine ⟨rfl, m + k, by omega, fun i hi => ?_, ?_, ?_⟩
          · by_cases hlt : i < m
            · exact hreach i hlt
            · have := hr (i - m) (by omega)
              rwa [show a + m + (i - m) = a + i by omega] at this
          · rw [seenBytes_add, List.mem_append, not_or]
            exact ⟨hzero, hnot⟩
          · rw [seenBytes_add, ← Nat.add_assoc, ← List.append_assoc]
            split_ifs at hres ⊢ with hgot
            · exact ⟨by omega, hres.2⟩
            · refine ⟨hres.1.imp_left (fun hk' => ?_), hres.2⟩
              omega
        · obtain rfl : m = max := by omega
          rw [Nat.sub_self]
          have hdone : x = x ∧ ∃ k ≤ m, Reaches pt a k ∧ 0 ∉ seenBytes pt x.1 a k ∧
              if (false, dst ++ seenBytes pt x.1 a m).1 then k < m ∧ seen pt x.1 (a + k) = some 0 ∧
                (false, dst ++ seenBytes pt x.1 a m).2 = dst ++ seenBytes pt x.1 a k ++ [0]
              else (k = m ∨ physOf pt (a + k) = none) ∧ (false, dst ++ seenBytes pt x.1 a m).2 = dst ++ seenBytes pt x.1 a k :=
            ⟨rfl, m, le_refl _, hreach, hzero, by rw [if_neg Bool.false_ne_true]; exact ⟨Or.inl rfl, rfl⟩⟩
          cases fuel <;> exact hdone

/-! ### All copies between the kernel and the user -/

theorem seenBytes_of_wrote (h : Wrote pt x y a n src) : seenBytes pt y.1 a n = (List.range n).map src := by
  apply List.map_congr_left
  intro i hi
  rw [h.inside i (List.mem_range.mp hi), Option.getD_some]

/-- Addresses do not wrap: `walkaddr` has failed before `va0 + PGSIZE` comes near `2 ^ 64`. -/
theorem user_copies_exact (h : x.2.table t = some pt) (hap : Apart pt) :
    (∀ va src len, (copyout t va src len).post x (fun copied y => (copied = true ↔ Reaches pt va len) ∧
      (copied = true → Wrote pt x y va len src)) (fun _ => False)) ∧
    (∀ va len, (copyin t va len).post x (fun r y => y = x ∧ (Reaches pt va len → r = some (seenBytes pt x.1 va len)) ∧
      (¬ Reaches pt va len → r = none)) (fun _ => False)) ∧
    (∀ va src len, Reaches pt va len → (copyout t va src len >>= fun _ => copyin t va len).post x
      (fun r _ => r = some ((List.range len).map src)) (fun _ => False)) ∧
    (∀ va max, (copyinstrBytes t va max).post x (fun r y => y = x ∧ r.2.length ≤ max ∧
      (r.1 = true ↔ ∃ j < max, seen pt x.1 (va + j) = some 0 ∧ Reaches pt va (j + 1)) ∧
      (r.1 = true → ∃ j < max, 0 ∉ seenBytes pt x.1 va j ∧ seen pt x.1 (va + j) = some 0 ∧
        r.2 = seenBytes pt x.1 va j ++ [0])) (fun _ => False)) ∧
    ∀ va max, copyinstr t va max =
      copyinstrBytes t va max >>= fun r => pure (if r.1 then some r.2.dropLast else none) := by
  have hin : ∀ {z : KState} va len, z.2.table t = some pt → (copyin t va len).post z (fun r y => y = z ∧
      (Reaches pt va len → r = some (seenBytes pt z.1 va len)) ∧ (¬ Reaches pt va len → r = none)) (fun _ => False) :=
    fun va len hz => post_copyinLoop hz (le_refl len)
  refine ⟨fun va src len => ?_, fun va len => hin va len h, fun va src len hr => ?_, fun va max => ?_,
    fun va max => copyinstrLoop_eq⟩
  · apply post_mono (post_copyout h hap) _ (fun _ he => he)
    rintro copied y ⟨k, hk, hwrote, hres⟩
    cases copied with
    | true =>
      rw [if_pos rfl] at hres
      subst hres
      exact ⟨⟨fun _ => Reaches.of_wrote hwrote, fun _ => rfl⟩, fun _ => hwrote⟩
    | false =>
      rw [if_neg Bool.false_ne_true] at hres
      refine ⟨⟨fun hf => absurd hf Bool.false_ne_true, fun hr => absurd hres.2 (hr k hres.1)⟩, fun hf => ?_⟩
      exact absurd hf Bool.false_ne_true
  · rw [post_bind]
    apply post_mono (post_copyout h hap) _ (fun _ he => he)
    rintro copied y ⟨k, hk, hwrote, hres⟩
    have hall : k = len := by
      split_ifs at hres
      · exact hres
      · exact absurd hres.2 (hr k hres.1)
    subst hall
    have htable : y.2.table t = some pt := by
      rw [hwrote.state]
      exact h
    apply post_mono (hin va k htable) _ (fun _ he => he)
    rintro r z ⟨-, hsome, -⟩
    rw [hsome hr, seenBytes_of_wrote hwrote]
  · apply post_mono (post_scanLoop h (le_refl max)) _ (fun _ he => he)
    rintro ⟨got, written⟩ y ⟨rfl, k, hk, hr, hnot, hres⟩
    cases got with
    | true =>
      rw [if_pos rfl, List.nil_append] at hres
      obtain ⟨hlt, hzero, hdst⟩ := hres
      refine ⟨rfl, ?_, ⟨fun _ => ⟨k, hlt, hzero, fun i hi => ?_⟩, fun _ => rfl⟩, fun _ => ⟨k, hlt, hnot, hzero, hdst⟩⟩
      · rw [hdst, List.length_append, length_seenBytes, List.length_singleton]
        exact hlt
      · by_cases hik : i = k
        · subst hik
          intro hnone
          rw [seen_eq_none_iff.mpr hnone] at hzero
          cases hzero
        · exact hr i (by omega)
    | false =>
      rw [if_neg Bool.false_ne_true, List.nil_append] at hres
      obtain ⟨hend, hdst⟩ := hres
      refine ⟨rfl, ?_, ⟨fun hf => absurd hf Bool.false_ne_true, ?_⟩, fun hf => absurd hf Bool.false_ne_true⟩
      · rw [hdst, length_seenBytes]
        exact hk
      · rintro ⟨j, hj, hzero, hreach⟩
        exfalso
        -- the scan has stopped at `k` and has seen no zero byte before
        by_cases hjk : j < k
        · apply hnot
          apply List.mem_map.mpr
          refine ⟨j, List.mem_range.mpr hjk, ?_⟩
          rw [hzero, Option.getD_some]
        · rcases hend with hend | hend
          · omega
          · exact hreach k (by omega) hend

end

theorem apart_bootTable : Apart bootTable := by
  have hzero : ∀ a p, physOf bootTable a = some p → a / pgSize = 0 := by
    intro a p hp
    unfold physOf at hp
    split_ifs at hp with ha
    rw [leaf_bootTable (ha.trans (by decide))] at hp
    by_contra hne
    rw [if_neg hne] at hp
    split_ifs at hp <;> cases hp
  intro a b p ha hb
  rw [hzero a p ha, hzero b p hb]

theorem copies_of_first_process : (copyout .own 4090 (fun i => UInt8.ofNat i) 6 >>= fun _ => copyin .own 4090 6).post firstRun
    (fun r _ => r = some [0, 1, 2, 3, 4, 5]) (fun _ => False) := by
  have hreach : Reaches bootTable 4090 6 := by
    intro i hi
    unfold physOf
    have hlt : 4090 + i < maxVa := by
      simp only [maxVa]
      omega
    rw [if_pos hlt, leaf_bootTable (hlt.trans (by decide)), if_pos (by simp only [pgSize]; omega)]
    exact Option.some_ne_none _
  exact (user_copies_exact rfl apart_bootTable).2.2.1 4090 _ 6 hreach

end Xv6.Kernel
