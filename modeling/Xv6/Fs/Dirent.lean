import Xv6.Fs.Refinement

namespace Xv6.Fs

def dirSiz : ℕ := 14

def direntSize : ℕ := 16

def cstr : ℕ → (ℕ → UInt8) → List UInt8
  | 0, _ => []
  | n + 1, p => if p 0 = 0 then [] else p 0 :: cstr n (fun k => p (k + 1))

def strncmp : ℕ → (ℕ → UInt8) → (ℕ → UInt8) → ℤ
  | 0, _, _ => 0
  | n + 1, p, q =>
    if p 0 ≠ 0 ∧ p 0 = q 0 then strncmp n (fun k => p (k + 1)) (fun k => q (k + 1))
    else (p 0).toNat - (q 0).toNat

def namecmp (s t : ℕ → UInt8) : ℤ := strncmp dirSiz s t

def strncpy : ℕ → (ℕ → UInt8) → List UInt8
  | 0, _ => []
  | n + 1, t => if t 0 = 0 then List.replicate (n + 1) 0 else t 0 :: strncpy n (fun k => t (k + 1))

theorem strncmp_eq_zero_iff (n : ℕ) (p q : ℕ → UInt8) : strncmp n p q = 0 ↔ cstr n p = cstr n q := by
  induction n generalizing p q with
  | zero => exact ⟨fun _ => rfl, fun _ => rfl⟩
  | succ n ih =>
    simp only [strncmp, cstr]
    by_cases hp : p 0 = 0
    · rw [if_neg (by simp [hp]), if_pos hp]
      by_cases hq : q 0 = 0
      · simp [hp, hq]
      · have hne : (q 0).toNat ≠ 0 := fun he => hq (UInt8.toNat.inj he)
        simp only [hp, if_neg hq, UInt8.toNat_zero]
        constructor
        · intro he
          omega
        · exact nofun
    · rw [if_neg hp]
      by_cases hpq : p 0 = q 0
      · rw [if_pos ⟨hp, hpq⟩, if_neg (by rw [← hpq]; exact hp), ih, List.cons.injEq]
        exact ⟨fun h => ⟨hpq, h⟩, fun h => h.2⟩
      · have hne : (p 0).toNat ≠ (q 0).toNat := fun he => hpq (UInt8.toNat.inj he)
        rw [if_neg (fun h => hpq h.2)]
        constructor
        · intro he
          omega
        · intro he
          split_ifs at he
          exact absurd (List.cons.inj he).1 hpq

theorem length_strncpy (n : ℕ) (t : ℕ → UInt8) : (strncpy n t).length = n := by
  induction n generalizing t with
  | zero => rfl
  | succ n ih =>
    rw [strncpy]
    split_ifs
    · exact List.length_replicate
    · rw [List.length_cons, ih]

theorem cstr_strncpy (n : ℕ) (t : ℕ → UInt8) : cstr n (fun k => (strncpy n t).getD k 0) = cstr n t := by
  induction n generalizing t with
  | zero => rfl
  | succ n ih =>
    rw [cstr, cstr, strncpy]
    by_cases ht : t 0 = 0
    · rw [if_pos ht, if_pos ht, if_pos]
      rfl
    · rw [if_neg ht, if_neg ht]
      simp only [List.getD_cons_zero, if_neg ht, List.getD_cons_succ, ih]

def direntInum (e : List UInt8) : ℕ := (e.getD 0 0).toNat + 256 * (e.getD 1 0).toNat

def direntName (e : List UInt8) : ℕ → UInt8 := fun k => e.getD (2 + k) 0

def dirent (inum : ℕ) (name : ℕ → UInt8) : List UInt8 :=
  UInt8.ofNat inum :: UInt8.ofNat (inum / 256) :: strncpy dirSiz name

theorem length_dirent (inum : ℕ) (name : ℕ → UInt8) : (dirent inum name).length = direntSize := by
  simp [dirent, length_strncpy, dirSiz, direntSize]

theorem direntInum_dirent {inum : ℕ} (h : inum < 65536) (name : ℕ → UInt8) : direntInum (dirent inum name) = inum := by
  simp only [direntInum, dirent, List.getD_cons_zero, List.getD_cons_succ, UInt8.toNat_ofNat']
  omega

def entryName (e : List UInt8) : List UInt8 := cstr dirSiz (direntName e)

theorem entryName_dirent (inum : ℕ) (name : ℕ → UInt8) : entryName (dirent inum name) = cstr dirSiz name := by
  have hname : direntName (dirent inum name) = fun k => (strncpy dirSiz name).getD k 0 := by
    funext k
    rw [direntName, dirent, Nat.add_comm, List.getD_cons_succ, List.getD_cons_succ]
  rw [entryName, hname, cstr_strncpy]

def entry (l : List UInt8) (j : ℕ) : List UInt8 := (l.drop (direntSize * j)).take direntSize

def entryCount (l : List UInt8) : ℕ := l.length / direntSize

def Names (l : List UInt8) (n : List UInt8) (j : ℕ) : Prop := direntInum (entry l j) ≠ 0 ∧ entryName (entry l j) = n

instance (l n : List UInt8) (j : ℕ) : Decidable (Names l n j) := inferInstanceAs (Decidable (_ ∧ _))

structure DirOk (l : List UInt8) : Prop where
  whole : l.length % direntSize = 0
  distinct : ∀ n i j, i < entryCount l → j < entryCount l → Names l n i → Names l n j → i = j

def lookup (l : List UInt8) (n : List UInt8) : Option ℕ :=
  ((List.range (entryCount l)).find? (fun j => Names l n j)).map (fun j => direntInum (entry l j))

variable {l : List UInt8} {n : List UInt8} {k : ℕ}

theorem lookup_eq_none_iff : lookup l n = none ↔ ∀ j < entryCount l, ¬ Names l n j := by
  simp [lookup, List.find?_eq_none]

theorem DirOk.lookup_of_names (h : DirOk l) (hk : k < entryCount l) (hn : Names l n k) :
    lookup l n = some (direntInum (entry l k)) := by
  obtain ⟨j, hj⟩ : ∃ j, (List.range (entryCount l)).find? (fun j => Names l n j) = some j := by
    rw [← Option.isSome_iff_exists, List.find?_isSome]
    exact ⟨k, List.mem_range.mpr hk, decide_eq_true hn⟩
  have hjn : Names l n j := by simpa using List.find?_some hj
  have hjk := h.distinct n j k (List.mem_range.mp (List.mem_of_find?_eq_some hj)) hk hjn hn
  rw [lookup, hj, Option.map_some, hjk]

theorem exists_of_lookup {i : ℕ} (h : lookup l n = some i) :
    ∃ j < entryCount l, Names l n j ∧ direntInum (entry l j) = i := by
  obtain ⟨j, hj, hi⟩ := Option.map_eq_some_iff.mp h
  exact ⟨j, List.mem_range.mp (List.mem_of_find?_eq_some hj), by simpa using List.find?_some hj, hi⟩

section Overwrite

variable {e : List UInt8}

theorem length_overwrite_entry (he : e.length = direntSize) (hk : direntSize * k ≤ l.length) :
    (overwrite l (direntSize * k) e).length = max l.length (direntSize * k + direntSize) := by
  simp only [overwrite, List.length_append, List.length_take, List.length_drop, he]
  omega

theorem entry_overwrite_self (he : e.length = direntSize) (hk : direntSize * k ≤ l.length) :
    entry (overwrite l (direntSize * k) e) k = e := by
  apply List.ext_getElem?
  intro o
  simp only [entry, List.getElem?_take, List.getElem?_drop]
  split_ifs with ho
  · rw [getElem_overwrite hk, if_pos (by omega)]
    congr 1
    omega
  · rw [List.getElem?_eq_none (by omega)]

theorem entry_overwrite_of_ne (he : e.length = direntSize) (hk : direntSize * k ≤ l.length) {j : ℕ} (hj : j ≠ k) :
    entry (overwrite l (direntSize * k) e) j = entry l j := by
  apply List.ext_getElem?
  intro o
  simp only [entry, List.getElem?_take, List.getElem?_drop]
  split_ifs with ho
  · rw [getElem_overwrite hk, if_neg]
    rw [he]
    simp only [direntSize] at *
    omega
  · rfl

theorem entryCount_overwrite (hl : l.length % direntSize = 0) (he : e.length = direntSize) (hk : k ≤ entryCount l) :
    direntSize * k ≤ l.length ∧ (overwrite l (direntSize * k) e).length % direntSize = 0 ∧
      entryCount (overwrite l (direntSize * k) e) = max (entryCount l) (k + 1) := by
  have hle : direntSize * k ≤ l.length := by
    simp only [entryCount, direntSize] at *
    omega
  refine ⟨hle, ?_⟩
  simp only [entryCount, length_overwrite_entry he hle]
  simp only [entryCount, direntSize] at *
  omega

theorem DirOk.link (h : DirOk l) {inum : ℕ} {name : ℕ → UInt8} (hk : k ≤ entryCount l)
    (hfree : k < entryCount l → direntInum (entry l k) = 0) (hi : 0 < inum ∧ inum < 65536)
    (hnew : lookup l (cstr dirSiz name) = none) :
    DirOk (overwrite l (direntSize * k) (dirent inum name)) ∧
      lookup (overwrite l (direntSize * k) (dirent inum name)) =
        Function.update (lookup l) (cstr dirSiz name) (some inum) := by
  have he := length_dirent inum name
  obtain ⟨hle, hwhole, hcount⟩ := entryCount_overwrite h.whole he hk
  have hself := entry_overwrite_self he hle
  have hother {j : ℕ} (hj : j ≠ k) := entry_overwrite_of_ne he hle hj
  have hnone := lookup_eq_none_iff.mp hnew
  have hin : direntInum (dirent inum name) = inum := direntInum_dirent hi.2 name
  have hnames : ∀ n j, j < max (entryCount l) (k + 1) →
      (Names (overwrite l (direntSize * k) (dirent inum name)) n j ↔
        if j = k then n = cstr dirSiz name else j < entryCount l ∧ Names l n j) := by
    intro n j hj
    split_ifs with hjk
    · subst hjk
      simp only [Names, hself, hin, entryName_dirent]
      constructor
      · exact fun hn => hn.2.symm
      · exact fun hn => ⟨by omega, hn.symm⟩
    · simp only [Names, hother hjk]
      exact ⟨fun hn => ⟨by omega, hn⟩, fun hn => hn.2⟩
  have hok : DirOk (overwrite l (direntSize * k) (dirent inum name)) := by
    refine ⟨hwhole, fun n i j hi' hj' hni hnj => ?_⟩
    rw [hcount] at hi' hj'
    rw [hnames n i hi'] at hni
    rw [hnames n j hj'] at hnj
    split_ifs at hni hnj with hik hjk hjk
    · rw [hik, hjk]
    · rw [hni] at hnj
      exact absurd hnj.2 (hnone j hnj.1)
    · rw [hnj] at hni
      exact absurd hni.2 (hnone i hni.1)
    · exact h.distinct n i j hni.1 hnj.1 hni.2 hnj.2
  refine ⟨hok, ?_⟩
  funext n
  by_cases hn : n = cstr dirSiz name
  · rw [hn, Function.update_self]
    have hk' : k < max (entryCount l) (k + 1) := by omega
    rw [hok.lookup_of_names (by rw [hcount]; exact hk') ((hnames _ k hk').mpr (by rw [if_pos rfl])), hself, hin]
  · rw [Function.update_of_ne hn]
    cases hl : lookup l n with
    | none =>
      rw [lookup_eq_none_iff] at hl ⊢
      intro j hj hjn
      rw [hcount] at hj
      rw [hnames n j hj] at hjn
      split_ifs at hjn
      · exact hn hjn
      · exact hl j hjn.1 hjn.2
    | some i =>
      obtain ⟨j, hj, hjn, hji⟩ := exists_of_lookup hl
      have hjk : j ≠ k := by
        rintro rfl
        exact hjn.1 (hfree hj)
      have hj' : j < max (entryCount l) (k + 1) := by omega
      rw [hok.lookup_of_names (by rw [hcount]; exact hj') ((hnames n j hj').mpr (by rw [if_neg hjk]; exact ⟨hj, hjn⟩)),
        hother hjk, hji]

theorem DirOk.clear (h : DirOk l) (hk : k < entryCount l) (hn : Names l n k) :
    DirOk (overwrite l (direntSize * k) (List.replicate direntSize 0)) ∧
      lookup (overwrite l (direntSize * k) (List.replicate direntSize 0)) = Function.update (lookup l) n none := by
  have he : (List.replicate direntSize (0 : UInt8)).length = direntSize := List.length_replicate
  obtain ⟨hle, hwhole, hcount⟩ := entryCount_overwrite h.whole he (Nat.le_of_lt hk)
  have hself := entry_overwrite_self he hle
  have hother {j : ℕ} (hj : j ≠ k) := entry_overwrite_of_ne he hle hj
  rw [Nat.max_eq_left (by omega)] at hcount
  have hzero : direntInum (List.replicate direntSize 0) = 0 := by decide
  have hnames : ∀ n' j, Names (overwrite l (direntSize * k) (List.replicate direntSize 0)) n' j ↔ j ≠ k ∧ Names l n' j := by
    intro n' j
    by_cases hjk : j = k
    · subst hjk
      simp only [Names, hself, hzero, ne_eq, not_true_eq_false, false_and]
    · simp only [Names, hother hjk, ne_eq, hjk, not_false_eq_true, true_and]
  have hok : DirOk (overwrite l (direntSize * k) (List.replicate direntSize 0)) := by
    refine ⟨hwhole, fun n' i j hi hj hni hnj => ?_⟩
    rw [hcount] at hi hj
    exact h.distinct n' i j hi hj ((hnames n' i).mp hni).2 ((hnames n' j).mp hnj).2
  refine ⟨hok, ?_⟩
  funext n'
  by_cases hnn : n' = n
  · rw [hnn, Function.update_self, lookup_eq_none_iff]
    intro j hj hjn
    rw [hcount] at hj
    obtain ⟨hjk, hjn⟩ := (hnames n j).mp hjn
    exact hjk (h.distinct n j k hj hk hjn hn)
  · rw [Function.update_of_ne hnn]
    cases hl : lookup l n' with
    | none =>
      rw [lookup_eq_none_iff] at hl ⊢
      intro j hj hjn
      rw [hcount] at hj
      exact hl j hj ((hnames n' j).mp hjn).2
    | some i =>
      obtain ⟨j, hj, hjn, hji⟩ := exists_of_lookup hl
      have hjk : j ≠ k := by
        rintro rfl
        exact hnn (hjn.2.symm.trans hn.2)
      rw [hok.lookup_of_names (by rw [hcount]; exact hj) ((hnames n' j).mpr ⟨hjk, hjn⟩), hother hjk, hji]

end Overwrite

end Xv6.Fs
