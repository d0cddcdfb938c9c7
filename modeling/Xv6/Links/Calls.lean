import Mathlib.Data.Fintype.BigOperators
import Xv6.Fs.DirectoryMap
import Xv6.Lib.SumUpdate

namespace Xv6.Links

open Lib Lib.Transition Fs
open Function (update update_of_ne update_self)

abbrev Name := List UInt8

def dot : Name := [46]
def dotdot : Name := [46, 46]

def fileType : ℕ := 2
def deviceType : ℕ := 3

/-- What an inode holds: `type` is 0 for a free one, `nlink` is a `short`, `dir` has the entries in use of a directory and
`data` the bytes of a file. -/
structure Node (I : Type) where
  type : ℕ
  nlink : BitVec 16
  dir : List (Name × I)
  data : List UInt8

abbrev St (I : Type) := I → Node I

variable {I : Type}

def dirlookup (d : List (Name × I)) (name : Name) : Option I := (d.find? (fun e => e.1 = name)).map Prod.snd

def maxEntries : ℕ := maxFile * bSize / direntSize

/-- `dirlink`, which refuses a name that is there. It takes a free slot or one at the end, and there is neither when all slots
of a directory of maximal size are in use: `writei` then returns -1. -/
def dirlink (d : List (Name × I)) (name : Name) (i : I) : Except String (Option (List (Name × I))) :=
  match dirlookup d name with
  | some _ => .ok none
  | none => if d.length < maxEntries then .ok (some (d ++ [(name, i)])) else .error "dirlink"

def clear (d : List (Name × I)) (name : Name) : List (Name × I) := d.eraseP (fun e => e.1 = name)

def isdirempty (d : List (Name × I)) : Bool := (d.drop 2).isEmpty

/-! ### Directories as maps

The byte-level `dirlink`, `dirlookup` and entry clearing refine `DirOp.spec`; the lists of entries here are maps in the same way. -/

section Maps

theorem dirlookup_dirlink {d : List (Name × I)} {name : Name} {i : I} (h : dirlookup d name = none) :
    dirlookup (d ++ [(name, i)]) = update (dirlookup d) name (some i) := by
  have hnone : d.find? (fun e => e.1 = name) = none := Option.map_eq_none_iff.mp h
  funext n
  by_cases hn : n = name
  · rw [hn, update_self, dirlookup, List.find?_append, hnone]
    simp
  · rw [update_of_ne hn, dirlookup, List.find?_append, List.find?_cons_of_neg (by simpa using Ne.symm hn)]
    simp [dirlookup]

theorem dirlookup_eq_none {d : List (Name × I)} {name : Name} (h : name ∉ d.map Prod.fst) : dirlookup d name = none := by
  unfold dirlookup
  rw [Option.map_eq_none_iff, List.find?_eq_none]
  intro e he
  rw [decide_eq_true_eq]
  rintro rfl
  exact h (List.mem_map_of_mem he)

theorem dirlookup_clear {d : List (Name × I)} {name : Name} (h : (d.map Prod.fst).Nodup) :
    dirlookup (clear d name) = update (dirlookup d) name none := by
  induction d with
  | nil =>
    funext n
    by_cases hn : n = name
    · rw [hn, update_self]
      rfl
    · rw [update_of_ne hn]
      rfl
  | cons e d ih =>
    rw [List.map_cons, List.nodup_cons] at h
    funext n
    by_cases he : e.1 = name
    · have hclear : clear (e :: d) name = d := List.eraseP_cons_of_pos (by simpa using he)
      rw [hclear]
      by_cases hn : n = name
      · rw [hn, update_self]
        exact dirlookup_eq_none (he ▸ h.1)
      · have hne : ¬ e.1 = n := fun hx => hn (hx.symm.trans he)
        rw [update_of_ne hn, dirlookup, dirlookup, List.find?_cons_of_neg (by simpa using hne)]
    · have hclear : clear (e :: d) name = e :: clear d name := List.eraseP_cons_of_neg (by simpa using he)
      rw [hclear]
      by_cases hen : e.1 = n
      · have hn : n ≠ name := fun hx => he (hen.trans hx)
        rw [update_of_ne hn, dirlookup, dirlookup, List.find?_cons_of_pos (by simpa using hen),
          List.find?_cons_of_pos (by simpa using hen)]
      · have hrest := congrFun (ih h.2) n
        rw [dirlookup, List.find?_cons_of_neg (by simpa using hen), ← dirlookup, hrest]
        by_cases hn : n = name
        · rw [hn, update_self, update_self]
        · rw [update_of_ne hn, update_of_ne hn, dirlookup, dirlookup,
            List.find?_cons_of_neg (by simpa using hen)]

theorem dirlink_spec {d : List (Name × ℕ)} {es : Option (List (Name × ℕ))} {name : ℕ → UInt8} {i : ℕ}
    (h : dirlink d (cstr dirSiz name) i = .ok es) :
    (DirOp.dirlink name i).spec (dirlookup d) = es.elim (-1, dirlookup d) (fun es => (0, dirlookup es)) := by
  unfold dirlink at h
  cases hlook : dirlookup d (cstr dirSiz name) with
  | some j =>
    rw [hlook] at h
    cases h
    simp only [DirOp.spec, hlook, Option.elim_none]
  | none =>
    rw [hlook] at h
    dsimp only at h
    split_ifs at h
    cases h
    simp only [DirOp.spec, hlook, Option.elim_some, dirlookup_dirlink hlook]

theorem clear_spec {d : List (Name × ℕ)} {name : ℕ → UInt8} {i : ℕ} (h : (d.map Prod.fst).Nodup)
    (hlook : dirlookup d (cstr dirSiz name) = some i) :
    (DirOp.clear name).spec (dirlookup d) = (0, dirlookup (clear d (cstr dirSiz name))) := by
  simp only [DirOp.spec, hlook, dirlookup_clear h]

end Maps

variable [DecidableEq I]

def St.putDir (s : St I) (d : I) (es : List (Name × I)) : St I := update s d { s d with dir := es }

def St.addLinks (s : St I) (i : I) (k : BitVec 16) : St I := update s i { s i with nlink := (s i).nlink + k }

def sysLink (s : St I) (ip dp : Option I) (name : Name) : Except String (ℤ × St I) :=
  match ip with
  | none => .ok (-1, s)
  | some ip =>
    if (s ip).type = dirType then .ok (-1, s)
    else
      let s := s.addLinks ip 1
      match dp with
      | none => .ok (-1, s.addLinks ip (-1))
      | some dp =>
        match dirlink (s dp).dir name ip with
        | .error e => .error e
        | .ok none => .ok (-1, s.addLinks ip (-1))
        | .ok (some es) => .ok (0, s.putDir dp es)

def sysUnlink (s : St I) (dp : I) (name : Name) : Except String (ℤ × St I) :=
  if name = dot ∨ name = dotdot then .ok (-1, s)
  else
    match dirlookup (s dp).dir name with
    | none => .ok (-1, s)
    | some ip =>
      if (s ip).nlink.toInt < 1 then .error "unlink: nlink < 1"
      else if (s ip).type = dirType ∧ isdirempty (s ip).dir = false then .ok (-1, s)
      else
        let t := s.putDir dp (clear (s dp).dir name)
        let t := if (s ip).type = dirType then t.addLinks dp (-1) else t
        .ok (0, t.addLinks ip (-1))

def makeDots (inum dp : I) : Except String (List (Name × I)) :=
  match dirlink [] dot inum with
  | .error e => .error e
  | .ok none => .error "create dots"
  | .ok (some es) =>
    match dirlink es dotdot dp with
    | .error e => .error e
    | .ok none => .error "create dots"
    | .ok (some es) => .ok es

def createDots (t : St I) (dp : I) (type : ℕ) (inum : I) : Except String (St I) :=
  if type = dirType then
    match makeDots inum dp with
    | .error e => .error e
    | .ok es => .ok ((t.addLinks dp 1).putDir inum es)
  else .ok t

def create (s : St I) (dp : Option I) (name : Name) (type : ℕ) (inum : I) : Except String (Option I × St I) :=
  match dp with
  | none => .ok (none, s)
  | some dp =>
    match dirlookup (s dp).dir name with
    | some ip => .ok (if type = fileType ∧ ((s ip).type = fileType ∨ (s ip).type = deviceType) then some ip else none, s)
    | none =>
      match createDots (update s inum ⟨type, 1, [], []⟩) dp type inum with
      | .error e => .error e
      | .ok t =>
        match dirlink (t dp).dir name inum with
        | .error e => .error e
        | .ok none => .error "create: dirlink"
        | .ok (some es) => .ok (some inum, t.putDir dp es)

def sysMake (s : St I) (dp : Option I) (name : Name) (type : ℕ) (inum : I) : Except String (ℤ × St I) :=
  match create s dp name type inum with
  | .error e => .error e
  | .ok (none, t) => .ok (-1, t)
  | .ok (some _, t) => .ok (0, t)

def sysMkdir (s : St I) (dp : Option I) (name : Name) (inum : I) : Except String (ℤ × St I) := sysMake s dp name dirType inum

def sysMknod (s : St I) (dp : Option I) (name : Name) (inum : I) : Except String (ℤ × St I) := sysMake s dp name deviceType inum

def sysOpen (s : St I) (dp : Option I) (name : Name) (inum : I) (fd : Option ℕ) : Except String (ℤ × St I) :=
  match create s dp name fileType inum with
  | .error e => .error e
  | .ok (none, t) => .ok (-1, t)
  | .ok (some _, t) => .ok (fd.elim (-1) (fun n => (n : ℤ)), t)

def iput (s : St I) (ip : I) : St I :=
  if (s ip).nlink = 0 then update s ip ⟨0, (s ip).nlink, [], []⟩ else s

inductive Call (I : Type)
  | link (ip : I) (dp : Option I) (name : Name)
  | unlink (dp : I) (name : Name)
  | create (dp : I) (name : Name) (type : ℕ) (inum : I)
  | iput (ip : I)

def step (s : St I) : Call I → Option (St I)
  | .link ip dp name => (sysLink s (some ip) dp name).toOption.map Prod.snd
  | .unlink dp name => (sysUnlink s dp name).toOption.map Prod.snd
  | .create dp name type inum => (create s (some dp) name type inum).toOption.map Prod.snd
  | .iput ip => some (iput s ip)

def Ready (s : St I) : Call I → Prop
  | .link ip dp _ => (s ip).type ≠ 0 ∧ ∀ d ∈ dp, (s d).type = dirType
  | .unlink dp _ => (s dp).type = dirType
  | .create dp _ type inum => (s dp).type = dirType ∧ (s inum).type = 0 ∧ type ≠ 0
  | .iput ip => (s ip).type ≠ 0

/-! ### The links of an inode -/

def rest (s : St I) (d : I) : List (Name × I) := (s d).dir.drop 2

def parent (s : St I) (d : I) : Option I := ((s d).dir[1]?).map Prod.snd

variable [Fintype I]

def named (s : St I) (i : I) : ℕ := ∑ d, (rest s d).countP (fun e => e.2 = i)

def Linked (root : I) (s : St I) (d : I) : Prop := d = root ∨ 0 < named s d

instance (root : I) (s : St I) (d : I) : Decidable (Linked root s d) := inferInstanceAs (Decidable (_ ∨ _))

def dotted (root : I) (s : St I) (i : I) : ℕ := ∑ d, if parent s d = some i ∧ Linked root s d then 1 else 0

def links (root : I) (s : St I) (i : I) : ℕ := named s i + dotted root s i

def Within (root : I) (s : St I) : Call I → Prop
  | .link ip dp _ => ∀ d ∈ dp, Linked root s d ∧ links root s ip < 32767
  | .create dp _ type _ => Linked root s dp ∧ (type = dirType → links root s dp < 32767)
  | _ => True

structure Consistent (root : I) (s : St I) : Prop where
  dots : ∀ d, (s d).type = dirType → ∃ p es, (s d).dir = (dot, d) :: (dotdot, p) :: es
  plain : ∀ d, (s d).type ≠ dirType → (s d).dir = []
  top : (s root).type = dirType ∧ parent s root = some root ∧ named s root = 0
  target : ∀ d, ∀ e ∈ rest s d, (s e.2).type ≠ 0
  once : ∀ i, (s i).type = dirType → named s i ≤ 1
  up : ∀ d, ∀ e ∈ rest s d, (s e.2).type = dirType → parent s e.2 = some d
  empty : ∀ d, ¬ Linked root s d → rest s d = []
  count : ∀ i, (s i).type ≠ 0 → (s i).nlink = BitVec.ofNat 16 (links root s i)
  bound : ∀ i, links root s i ≤ 32767

variable {root dp ip inum : I} {s t : St I} {name : Name} {type : ℕ}

structure Adds (s t : St I) (dp ip : I) (name : Name) : Prop where
  same : ∀ d ≠ dp, rest t d = rest s d
  perm : (rest t dp).Perm ((name, ip) :: rest s dp)

theorem sum_of_ne {f g : I → ℕ} (d : I) (h : ∀ j ≠ d, g j = f j) : ∑ j, g j + f d = ∑ j, f j + g d := by
  have hg : g = update f d (g d) := by
    funext j
    by_cases hj : j = d
    · rw [hj, update_self]
    · rw [update_of_ne hj, h j hj]
  have hsum := sum_update_add (fun _ x => x) f d (g d)
  rw [← hg] at hsum
  exact hsum

namespace Adds

theorem named_eq (h : Adds s t dp ip name) (i : I) : named t i = named s i + if ip = i then 1 else 0 := by
  have hsum := sum_of_ne (f := fun d => (rest s d).countP (fun e => e.2 = i)) (g := fun d => (rest t d).countP (fun e => e.2 = i))
    dp (fun d hd => by rw [h.same d hd])
  have hcount := h.perm.countP_eq (fun e => decide (e.2 = i))
  rw [List.countP_cons] at hcount
  simp only [decide_eq_true_eq] at hcount
  unfold named
  omega

omit [Fintype I] in
theorem mem_iff (h : Adds s t dp ip name) {d : I} {e : Name × I} : e ∈ rest t d ↔ e ∈ rest s d ∨ d = dp ∧ e = (name, ip) := by
  by_cases hd : d = dp
  · rw [hd, h.perm.mem_iff, List.mem_cons]
    tauto
  · rw [h.same d hd]
    tauto

theorem linked_iff (h : Adds s t dp ip name) {d : I} (hd : d ≠ ip) : Linked root t d ↔ Linked root s d := by
  unfold Linked
  rw [h.named_eq, if_neg hd.symm, Nat.add_zero]

theorem linked_self (h : Adds s t dp ip name) : Linked root t ip := by
  right
  rw [h.named_eq, if_pos rfl]
  omega

end Adds

theorem dotted_congr (h : ∀ d, parent t d = some ip ∧ Linked root t d ↔ parent s d = some ip ∧ Linked root s d) :
    dotted root t ip = dotted root s ip := by
  unfold dotted
  apply Finset.sum_congr rfl
  intro d _
  simp only [h d]

theorem dotted_succ {d : I} (hs : ¬ (parent s d = some ip ∧ Linked root s d)) (ht : parent t d = some ip ∧ Linked root t d)
    (h : ∀ j ≠ d, parent t j = some ip ∧ Linked root t j ↔ parent s j = some ip ∧ Linked root s j) :
    dotted root t ip = dotted root s ip + 1 := by
  have hsum := sum_of_ne (f := fun d => if parent s d = some ip ∧ Linked root s d then 1 else 0)
    (g := fun d => if parent t d = some ip ∧ Linked root t d then 1 else 0) d (fun j hj => by simp only [h j hj])
  simp only [if_neg hs, if_pos ht] at hsum
  exact hsum

theorem exists_of_named (h : 0 < named s ip) : ∃ d, ∃ e ∈ rest s d, e.2 = ip := by
  by_contra hnone
  push Not at hnone
  have hzero : named s ip = 0 := by
    apply Finset.sum_eq_zero
    intro d _
    rw [List.countP_eq_zero]
    intro e he
    rw [decide_eq_true_eq]
    exact hnone d e he
  omega

theorem named_pos {d : I} {e : Name × I} (he : e ∈ rest s d) : 0 < named s e.2 := by
  have hle : (rest s d).countP (fun e' => e'.2 = e.2) ≤ named s e.2 :=
    Finset.single_le_sum (f := fun d => (rest s d).countP (fun e' => e'.2 = e.2)) (fun _ _ => Nat.zero_le _) (Finset.mem_univ d)
  have hpos : 0 < (rest s d).countP (fun e' => e'.2 = e.2) := List.countP_pos_iff.mpr ⟨e, he, by simp⟩
  omega

end Xv6.Links
