import Mathlib.Algebra.Notation.Pi.Basic
import Mathlib.Data.List.TakeWhile
import Xv6.Fs.DirectoryMap

namespace Xv6.Fs

open Lib Hoare
open Function (update update_of_ne update_self)

def slash : UInt8 := 47

def memmove (dst : ℕ → UInt8) (src : List UInt8) (len : ℕ) : ℕ → UInt8 :=
  fun k => if k < len then src.getD k 0 else dst k

def skipelem (path : List UInt8) (name : ℕ → UInt8) : Option (List UInt8 × (ℕ → UInt8)) :=
  let s := path.dropWhile (· = slash)
  if s.headD 0 = 0 then none
  else
    let path := s.dropWhile (fun b => b ≠ slash ∧ b ≠ 0)
    let len := s.length - path.length
    let name := if len ≥ dirSiz then memmove name s dirSiz else update (memmove name s len) len 0
    some (path.dropWhile (· = slash), name)

def elements : ℕ → List UInt8 → (ℕ → UInt8) → List (List UInt8)
  | 0, _, _ => []
  | fuel + 1, path, name =>
    match skipelem path name with
    | none => []
    | some (path, name) => cstr dirSiz name :: elements fuel path name

section Functions

variable (sb : Superblock)

def namexFrom (parent : Bool) : ℕ → List UInt8 → (ℕ → UInt8) → Fin nInode → FsM (Option (Fin nInode × (ℕ → UInt8)))
  | 0, _, _, _ => return none
  | fuel + 1, path, name, ip =>
    match skipelem path name with
    | none => do
      if parent then
        iput sb ip
        return none
      else return some (ip, name)
    | some (path, name) => do
      ilock sb ip
      if (← inode ip).type ≠ dirType then
        iput sb ip
        return none
      else if parent ∧ path.headD 0 = 0 then return some (ip, name)
      else
        match ← dirlookup sb ip name with
        | none =>
          iput sb ip
          return none
        | some (next, _) =>
          iput sb ip
          namexFrom parent fuel path name next

def namex (cwd : Fin nInode) (path : List UInt8) (parent : Bool) (name : ℕ → UInt8) :
    FsM (Option (Fin nInode × (ℕ → UInt8))) := do
  if path.headD 0 = slash then
    let ip ← iget rootIno
    namexFrom sb parent (path.length + 1) path name ip
  else
    idup cwd
    namexFrom sb parent (path.length + 1) path name cwd

def namei (cwd : Fin nInode) (path : List UInt8) (name : ℕ → UInt8) : FsM (Option (Fin nInode)) := do
  return (← namex sb cwd path false name).map Prod.fst

def nameiparent (cwd : Fin nInode) (path : List UInt8) (name : ℕ → UInt8) : FsM (Option (Fin nInode × (ℕ → UInt8))) :=
  namex sb cwd path true name

end Functions

def runs (path : List UInt8) : List (List UInt8) := (path.splitOnP (· = slash)).filter (· ≠ [])

def components (path : List UInt8) : List (List UInt8) := (runs path).map (List.take dirSiz)

theorem runs_dropWhile (path : List UInt8) : runs (path.dropWhile (· = slash)) = runs path := by
  induction path with
  | nil => rfl
  | cons b path ih =>
    rw [List.dropWhile_cons]
    split_ifs with hb
    · rw [ih, runs, runs, List.splitOnP_cons_eq_if_modifyHead, if_pos hb, List.filter_cons_of_neg (by simp)]
    · rfl

theorem runs_cons {s : List UInt8} (hs : s.takeWhile (· ≠ slash) ≠ []) :
    runs s = s.takeWhile (· ≠ slash) :: runs (s.dropWhile (· ≠ slash)) := by
  have hrun : ∀ b ∈ s.takeWhile (· ≠ slash), decide (b = slash) = false := by
    intro b hb
    have := List.mem_takeWhile_imp hb
    simpa using this
  have hsplit := List.takeWhile_append_dropWhile (p := fun b : UInt8 => decide (b ≠ slash)) (l := s)
  cases hd : s.dropWhile (· ≠ slash) with
  | nil =>
    rw [hd, List.append_nil] at hsplit
    rw [hsplit] at hrun hs ⊢
    rw [runs, runs, List.splitOnP_eq_singleton hrun, List.splitOnP_nil]
    simp [hs]
  | cons b rest =>
    have hb : decide (b = slash) = true := by
      have := List.head?_dropWhile_not (fun b : UInt8 => decide (b ≠ slash)) s
      rw [hd] at this
      simpa using this
    rw [hd] at hsplit
    have hrest : runs (b :: rest) = runs rest := by
      rw [← runs_dropWhile, List.dropWhile_cons, if_pos hb, runs_dropWhile]
    rw [hrest]
    conv_lhs => rw [← hsplit]
    rw [runs, List.splitOnP_append_cons_of_forall_mem hrun b hb, List.filter_cons_of_pos (by simpa using hs), runs]

theorem cstr_eq_take {n : ℕ} {l : List UInt8} {p : ℕ → UInt8} (hl : 0 ∉ l) (hp : ∀ k < l.length, k < n → p k = l.getD k 0)
    (hend : l.length < n → p l.length = 0) : cstr n p = l.take n := by
  induction n generalizing l p with
  | zero => rfl
  | succ n ih =>
    rw [cstr]
    cases l with
    | nil =>
      have h0 : p 0 = 0 := hend (Nat.succ_pos n)
      rw [if_pos h0, List.take_nil]
    | cons b l =>
      have hb : p 0 = b := hp 0 (Nat.succ_pos _) (Nat.succ_pos _)
      rw [hb, if_neg (fun h0 => hl (by rw [h0]; exact List.mem_cons_self)), List.take_succ_cons]
      congr 1
      apply ih (fun h0 => hl (List.mem_cons_of_mem b h0))
      · intro k hk hkn
        exact hp (k + 1) (Nat.succ_lt_succ hk) (Nat.succ_lt_succ hkn)
      · exact fun h => hend (Nat.succ_lt_succ h)

theorem cstr_copied (name : ℕ → UInt8) {run : List UInt8} (rest : List UInt8) (hrun : 0 ∉ run) :
    cstr dirSiz (if run.length ≥ dirSiz then memmove name (run ++ rest) dirSiz
      else update (memmove name (run ++ rest) run.length) run.length 0) = run.take dirSiz := by
  have hget {k : ℕ} (hk : k < run.length) : (run ++ rest).getD k 0 = run.getD k 0 := by
    rw [List.getD_eq_getElem?_getD, List.getElem?_append_left hk, List.getD_eq_getElem?_getD]
  apply cstr_eq_take hrun
  · intro k hk hkn
    split_ifs with hlong
    · rw [memmove, if_pos hkn, hget hk]
    · rw [update_of_ne (Nat.ne_of_lt hk), memmove, if_pos hk, hget hk]
  · intro hshort
    rw [if_neg (by omega), update_self]

theorem dropWhile_subset_of_notMem (q : UInt8 → Bool) {l : List UInt8} (hl : 0 ∉ l) : 0 ∉ l.dropWhile q :=
  fun h => hl ((List.dropWhile_suffix q).subset h)

theorem eq_nil_of_headD {l : List UInt8} (hl : 0 ∉ l) (hh : l.headD 0 = 0) : l = [] := by
  cases l with
  | nil => rfl
  | cons b l =>
    exfalso
    apply hl
    rw [← hh]
    exact List.mem_cons_self

theorem dropWhile_no_slash {s : List UInt8} (hs : 0 ∉ s) :
    s.dropWhile (fun b => b ≠ slash ∧ b ≠ 0) = s.dropWhile (· ≠ slash) := by
  induction s with
  | nil => rfl
  | cons b s ih =>
    have hb : b ≠ 0 := fun h0 => hs (by rw [h0]; exact List.mem_cons_self)
    simp only [List.dropWhile_cons, hb, ne_eq, not_false_eq_true, and_true]
    rw [ih (fun h0 => hs (List.mem_cons_of_mem b h0))]

theorem headD_eq_zero_iff {path : List UInt8} (hpath : 0 ∉ path) :
    (path.dropWhile (· = slash)).headD 0 = 0 ↔ components (path.dropWhile (· = slash)) = [] := by
  constructor
  · intro h
    rw [eq_nil_of_headD (dropWhile_subset_of_notMem _ hpath) h]
    rfl
  · intro h
    have hhead := List.head?_dropWhile_not (fun b : UInt8 => decide (b = slash)) path
    cases hd : path.dropWhile (· = slash) with
    | nil => rfl
    | cons b l =>
      rw [hd] at h hhead
      have hb : b ≠ slash := by simpa using hhead
      rw [components, runs_cons (by simp [hb])] at h
      cases h

theorem skipelem_cases {path : List UInt8} (hpath : 0 ∉ path) (name : ℕ → UInt8) :
    (skipelem path name = none ∧ components path = []) ∨
      ∃ path' name', skipelem path name = some (path', name') ∧
        components path = cstr dirSiz name' :: components path' ∧ path'.length < path.length ∧ 0 ∉ path' ∧
        (path'.headD 0 = 0 ↔ components path' = []) := by
  have hcomp : components path = components (path.dropWhile (· = slash)) := by
    rw [components, components, runs_dropWhile]
  have hend := headD_eq_zero_iff hpath
  have hhead := List.head?_dropWhile_not (fun b : UInt8 => decide (b = slash)) path
  have hs0 := dropWhile_subset_of_notMem (fun b : UInt8 => decide (b = slash)) hpath
  have hlen : (path.dropWhile (· = slash)).length ≤ path.length := (List.dropWhile_suffix _).length_le
  simp only [skipelem]
  rw [hcomp]
  generalize path.dropWhile (· = slash) = s at *
  by_cases h0 : s.headD 0 = 0
  · left
    rw [if_pos h0]
    exact ⟨rfl, hend.mp h0⟩
  · right
    have hrun : s.takeWhile (· ≠ slash) ≠ [] := by
      cases s with
      | nil => exact absurd rfl h0
      | cons b l =>
        have hb : b ≠ slash := by simpa using hhead
        simp [hb]
    have hsplit := List.takeWhile_append_dropWhile (p := fun b : UInt8 => decide (b ≠ slash)) (l := s)
    have hcount : s.length - (s.dropWhile (· ≠ slash)).length = (s.takeWhile (· ≠ slash)).length := by
      have := congrArg List.length hsplit
      rw [List.length_append] at this
      omega
    have hrest : 0 ∉ s.dropWhile (· ≠ slash) := dropWhile_subset_of_notMem _ hs0
    have hrun0 : 0 ∉ s.takeWhile (· ≠ slash) := fun h => hs0 ((List.takeWhile_prefix _).subset h)
    have hcopied := cstr_copied name (s.dropWhile (· ≠ slash)) hrun0
    rw [hsplit] at hcopied
    rw [if_neg h0, dropWhile_no_slash hs0, hcount]
    refine ⟨_, _, rfl, ?_, ?_, dropWhile_subset_of_notMem _ hrest, headD_eq_zero_iff hrest⟩
    · rw [hcopied, components, components, runs_dropWhile, runs_cons hrun, List.map_cons]
    · have hle : ((s.dropWhile (· ≠ slash)).dropWhile (· = slash)).length ≤ (s.dropWhile (· ≠ slash)).length :=
        (List.dropWhile_suffix _).length_le
      have hpos := List.length_pos_of_ne_nil hrun
      have := congrArg List.length hsplit
      rw [List.length_append] at this
      omega

theorem elements_eq {path : List UInt8} {fuel : ℕ} (hpath : 0 ∉ path) (hfuel : path.length < fuel) (name : ℕ → UInt8) :
    elements fuel path name = components path := by
  induction fuel generalizing path name with
  | zero => omega
  | succ fuel ih =>
    rw [elements]
    rcases skipelem_cases hpath name with ⟨hnone, hnil⟩ | ⟨path', name', hsome, hcons, hlt, h0, -⟩
    · rw [hnone, hnil]
    · rw [hsome, hcons]
      dsimp only
      rw [ih h0 (by omega)]

section Resolution

variable (sb : Superblock)

def resolve (s : FsState) : ℕ → List (List UInt8) → Option ℕ
  | i, [] => some i
  | i, n :: ns => if (attr sb s i).type = dirType then (lookup (contents sb s i) n).bind (resolve s · ns) else none

def resolveParent (s : FsState) (i : ℕ) (ns : List (List UInt8)) : Option (ℕ × List UInt8) :=
  ns.getLast?.bind fun n =>
    (resolve sb s i ns.dropLast).bind fun d => if (attr sb s d).type = dirType then some (d, n) else none

def startInum (s : FsState) (cwd : Fin nInode) (path : List UInt8) : ℕ :=
  if path.headD 0 = slash then rootIno else (s.itable cwd).inum

def Live (s : FsState) (i : ℕ) : Prop :=
  i < sb.ninodes ∧ (attr sb s i).type ≠ 0 ∧
    ((attr sb s i).nlink ≠ 0 ∨ ∃ jp, 0 < (s.itable jp).ref ∧ (s.itable jp).inum = i)

structure Tree (s : FsState) : Prop where
  root : Live sb s rootIno
  dir : ∀ i < sb.ninodes, (attr sb s i).type = dirType → DirOk (contents sb s i)
  live : ∀ i < sb.ninodes, (attr sb s i).type = dirType → ∀ n j, lookup (contents sb s i) n = some j → Live sb s j

structure Holds (s t : FsState) (extra : Fin nInode → ℕ) : Prop where
  inv : FsInv sb t
  cache : t.cache = s.cache
  ref : ∀ jp, (t.itable jp).ref = (s.itable jp).ref + extra jp
  kept : ∀ jp, 0 < (s.itable jp).ref → (t.itable jp).inum = (s.itable jp).inum

def Returns (s t : FsState) : Option (Fin nInode) → Option ℕ → Prop
  | some ip, some i => Holds sb s t (Pi.single ip 1) ∧ (t.itable ip).inum = i
  | none, none => Holds sb s t 0
  | _, _ => False

def Found (s t : FsState) (parent : Bool) (i : ℕ) (ns : List (List UInt8)) (r : Option (Fin nInode × (ℕ → UInt8))) : Prop :=
  match parent with
  | false => Returns sb s t (r.map Prod.fst) (resolve sb s i ns)
  | true => Returns sb s t (r.map Prod.fst) ((resolveParent sb s i ns).map Prod.fst) ∧
    r.map (fun x => cstr dirSiz x.2) = (resolveParent sb s i ns).map Prod.snd

def TableFull (s : FsState) : Prop := ∃ ip, ∀ jp ≠ ip, 0 < (s.itable jp).ref

end Resolution

variable {sb : Superblock} {s t u : FsState} {ip cwd : Fin nInode} {extra : Fin nInode → ℕ} {i : ℕ} {ns : List (List UInt8)}

theorem resolveParent_nil : resolveParent sb s i [] = none := rfl

theorem resolveParent_singleton (n : List UInt8) :
    resolveParent sb s i [n] = if (attr sb s i).type = dirType then some (i, n) else none := rfl

theorem resolveParent_cons (n m : List UInt8) :
    resolveParent sb s i (n :: m :: ns) =
      if (attr sb s i).type = dirType then (lookup (contents sb s i) n).bind (resolveParent sb s · (m :: ns)) else none := by
  rw [resolveParent, List.getLast?_cons_cons, List.dropLast_cons_cons, resolve]
  obtain ⟨l, hl⟩ : ∃ l, (m :: ns).getLast? = some l := ⟨_, List.getLast?_eq_getLast_of_ne_nil (List.cons_ne_nil m ns)⟩
  simp only [resolveParent, hl, Option.bind_some]
  split_ifs
  · rw [Option.bind_assoc]
  · rfl

theorem resolveParent_of_not_dir (hty : (attr sb s i).type ≠ dirType) : resolveParent sb s i ns = none := by
  rcases ns with _ | ⟨n, _ | ⟨m, ns⟩⟩
  · rfl
  · rw [resolveParent_singleton, if_neg hty]
  · rw [resolveParent_cons, if_neg hty]

theorem resolve_eq_bind (hns : ns ≠ []) :
    resolve sb s i ns = (resolveParent sb s i ns).bind fun p => lookup (contents sb s p.1) p.2 := by
  induction ns generalizing i with
  | nil => exact absurd rfl hns
  | cons n ns ih =>
    cases ns with
    | nil =>
      rw [resolveParent_singleton, resolve]
      split_ifs
      · rw [Option.bind_some]
        cases lookup (contents sb s i) n <;> rfl
      · rfl
    | cons m ns =>
      rw [resolveParent_cons, resolve]
      split_ifs
      · rw [Option.bind_assoc]
        congr 1
        funext j
        exact ih (List.cons_ne_nil m ns)
      · rfl

namespace Holds

theorem refl (h : FsInv sb s) : Holds sb s s 0 := ⟨h, rfl, fun _ => rfl, fun _ _ => rfl⟩

theorem got {j : ℕ} (h : Holds sb s t extra) (hgot : Got sb t u ip j) : Holds sb s u (extra + Pi.single ip 1) := by
  refine ⟨hgot.inv, hgot.cache.trans h.cache, fun jp => ?_, fun jp hj => ?_⟩
  · rw [Pi.add_apply, ← Nat.add_assoc, ← h.ref]
    by_cases hji : jp = ip
    · rw [hji, hgot.ref, Pi.single_eq_same]
    · rw [hgot.other jp hji, Pi.single_eq_of_ne hji]
      rfl
  · rw [← h.kept jp hj]
    by_cases hji : jp = ip
    · subst hji
      rw [hgot.inum, (hgot.kept (by rw [h.ref]; omega)).1]
    · rw [hgot.other jp hji]

theorem load (h : Holds sb s t extra) (hr : 0 < (t.itable ip).ref) (ht : (attr sb s (t.itable ip).inum).type ≠ 0) :
    Holds sb s (t.load sb ip) extra := by
  have htype : (disk sb t.cache (t.itable ip).inum).type ≠ 0 := by
    rw [h.cache]
    exact ht
  refine ⟨h.inv.load hr htype, h.cache, fun jp => ?_, fun jp hj => ?_⟩
  · rw [← h.ref, FsState.load]
    dsimp only
    by_cases hji : jp = ip
    · rw [hji, update_self]
    · rw [update_of_ne hji]
  · rw [← h.kept jp hj, FsState.load]
    dsimp only
    by_cases hji : jp = ip
    · rw [hji, update_self]
    · rw [update_of_ne hji]

theorem iput (h : Holds sb s t (extra + Pi.single ip 1)) (hlive : Live sb s (t.itable ip).inum) {E : String → Prop} :
    wp (Fs.iput sb ip) t
      (fun _ u => Holds sb s u extra ∧ ∀ jp, (u.itable jp).inum = (t.itable jp).inum) E := by
  have href : (t.itable ip).ref = (s.itable ip).ref + extra ip + 1 := by
    rw [h.ref, Pi.add_apply, Pi.single_eq_same, Nat.add_assoc]
  have hpos : 0 < (t.itable ip).ref := by omega
  have hkeep : ¬ ((t.itable ip).ref = 1 ∧ (t.itable ip).valid = true ∧ (t.itable ip).nlink = 0) := by
    rintro ⟨hr, hv, hn⟩
    rcases hlive.2.2 with hl | ⟨jp, hjr, hji⟩
    · apply hl
      rw [← hn, ((h.inv.table ip hpos).2 hv).1, h.cache]
      rfl
    · have hj : jp = ip := by
        apply h.inv.uniq jp ip _ hpos
        · rw [h.kept jp hjr, hji]
        · rw [h.ref]
          omega
      rw [hj] at hjr
      omega
  refine wp_mono (iput_effect h.inv hpos) ?_ (fun _ he => he)
  intro _ u hu
  have hinum (jp : Fin nInode) : (u.itable jp).inum = (t.itable jp).inum := by
    by_cases hji : jp = ip
    · rw [hji, hu.inum]
    · rw [hu.other jp hji]
  refine ⟨⟨hu.inv, (hu.kept hkeep).1.trans h.cache, fun jp => ?_, fun jp hj => ?_⟩, hinum⟩
  · by_cases hji : jp = ip
    · rw [hji, hu.ref, href, Nat.add_sub_cancel]
    · rw [hu.other jp hji, h.ref, Pi.add_apply, Pi.single_eq_of_ne hji, Nat.add_zero]
  · rw [hinum, h.kept jp hj]

end Holds

theorem Tree.heldDir (htree : Tree sb s) (h : Holds sb s t extra) (hr : 0 < (t.itable ip).ref)
    (hv : (t.itable ip).valid = true) (hty : (t.itable ip).type = dirType) : HeldDir sb t ip := by
  have hattr : (attr sb s (t.itable ip).inum).type = dirType := by
    rw [← hty, ((h.inv.table ip hr).2 hv).1, h.cache]
    rfl
  have hlt := (h.inv.table ip hr).1
  refine ⟨⟨h.inv, hr, hv⟩, hty, ?_, ?_⟩
  · rw [contents_of_cache h.cache]
    exact htree.dir _ hlt hattr
  · intro n j hj
    rw [contents_of_cache h.cache] at hj
    exact (htree.live _ hlt hattr n j hj).1

theorem Found.none {parent : Bool} (h : Holds sb s t 0) (hr : parent = false → resolve sb s i ns = none)
    (hp : parent = true → resolveParent sb s i ns = none) : Found sb s t parent i ns none := by
  cases parent with
  | false =>
    rw [Found, hr rfl]
    exact h
  | true =>
    rw [Found, hp rfl]
    exact ⟨h, rfl⟩

theorem Found.cons {parent : Bool} {n : List UInt8} {j : ℕ} {r : Option (Fin nInode × (ℕ → UInt8))}
    (h : Found sb s t parent j ns r) (hty : (attr sb s i).type = dirType) (hn : lookup (contents sb s i) n = some j)
    (hns : parent = true → ns ≠ []) : Found sb s t parent i (n :: ns) r := by
  cases parent with
  | false =>
    rw [Found, resolve, if_pos hty, hn]
    exact h
  | true =>
    cases ns with
    | nil => exact absurd rfl (hns rfl)
    | cons m ns =>
      rw [Found, resolveParent_cons, if_pos hty, hn]
      exact h

theorem namexFrom_spec (parent : Bool) {fuel : ℕ} {path : List UInt8} (name : ℕ → UInt8) (htree : Tree sb s)
    (h : Holds sb s t (Pi.single ip 1)) (hlive : Live sb s (t.itable ip).inum) (hpath : 0 ∉ path)
    (hfuel : path.length < fuel) :
    wp (namexFrom sb parent fuel path name ip) t
      (fun r u => Found sb s u parent (t.itable ip).inum (components path) r)
      (fun e => e = "iget: no inodes" ∧ TableFull s) := by
  induction fuel generalizing path name ip t with
  | zero => omega
  | succ fuel ih =>
    have hr : 0 < (t.itable ip).ref := by
      rw [h.ref, Pi.single_eq_same]
      omega
    rcases skipelem_cases hpath name with ⟨hnone, hnil⟩ | ⟨path', name', hsome, hcons, hlt, h0, hlast⟩
    · simp only [namexFrom, hnone, hnil]
      cases parent with
      | false => exact ⟨h, rfl⟩
      | true =>
        simp only [↓reduceIte, wp_bind, wp_pure]
        refine wp_mono (Holds.iput (by rw [zero_add]; exact h) hlive) ?_ (fun _ he => he)
        exact fun _ u hu => ⟨hu.1, rfl⟩
    · simp only [namexFrom, hsome, hcons, wp_bind]
      apply ilock_effect h.inv hr (by rw [h.cache]; exact hlive.2.1)
      have hu := h.load hr hlive.2.1
      have hself : (t.load sb ip).itable ip =
          ⟨disk sb t.cache (t.itable ip).inum, (t.itable ip).inum, (t.itable ip).ref, true⟩ := by
        rw [FsState.load]
        exact update_self _ _ _
      have hinum : ((t.load sb ip).itable ip).inum = (t.itable ip).inum := by rw [hself]
      have htype : ((t.load sb ip).itable ip).type = (attr sb s (t.itable ip).inum).type := by
        rw [hself, h.cache]
        rfl
      have hur : 0 < ((t.load sb ip).itable ip).ref := by
        rw [hself]
        exact hr
      have huv : ((t.load sb ip).itable ip).valid = true := by rw [hself]
      rw [← hinum] at hlive htype ⊢
      generalize t.load sb ip = u at *
      have hfail (hr : resolve sb s (u.itable ip).inum (cstr dirSiz name' :: components path') = none)
          (hp : parent = true → resolveParent sb s (u.itable ip).inum (cstr dirSiz name' :: components path') = none) :
          wp (iput sb ip) u
            (fun _ v => Found sb s v parent (u.itable ip).inum (cstr dirSiz name' :: components path') none)
            (fun e => e = "iget: no inodes" ∧ TableFull s) :=
        wp_mono (Holds.iput (by rw [zero_add]; exact hu) hlive) (fun _ v hv => Found.none hv.1 (fun _ => hr) hp)
          (fun _ he => he)
      simp only [inode, wp_bind, wp_get, wp_pure, wp_ite, htype]
      split_ifs with hty hend
      · apply hfail
        · rw [resolve, if_neg hty]
        · exact fun _ => resolveParent_of_not_dir hty
      · obtain ⟨rfl, hpe⟩ := hend
        rw [hlast.mp hpe, Found, resolveParent_singleton, if_pos (not_not.mp hty)]
        exact ⟨⟨hu, rfl⟩, rfl⟩
      · have hdir := not_not.mp hty
        have hmore : parent = true → components path' ≠ [] := fun hp hnil => hend ⟨hp, hlast.mpr hnil⟩
        have hcon : contents sb u = contents sb s := contents_of_cache hu.cache
        have hheld := htree.heldDir hu hur huv (htype.trans hdir)
        apply dirlookup_spec hheld
        · intro hnone
          rw [hcon] at hnone
          simp only [wp_bind, wp_pure]
          apply hfail
          · rw [resolve, if_pos hdir, hnone]
            rfl
          · intro hp
            obtain ⟨m, ns, hns⟩ := List.exists_cons_of_ne_nil (hmore hp)
            rw [hns, resolveParent_cons, if_pos hdir, hnone]
            rfl
        · intro j next v hj hn hgot
          have hfound := hheld.dir.lookup_of_names hj hn
          rw [hcon] at hfound hgot
          have hv := hu.got hgot
          rw [add_comm] at hv
          have hvi := (hgot.held hheld.toHeld).2
          simp only [wp_bind]
          refine wp_mono (Holds.iput hv (by rw [hvi]; exact hlive)) ?_ (fun _ he => he)
          rintro _ w ⟨hw, hwi⟩
          have hnext : (w.itable next).inum =
              direntInum (entry (contents sb s (u.itable ip).inum) j) := by rw [hwi, hgot.inum]
          have hlive' := htree.live _ hlive.1 hdir _ _ hfound
          rw [← hnext] at hlive' hfound
          refine wp_mono (ih _ hw hlive' h0 (by omega)) ?_ (fun _ he => he)
          exact fun r x hx => hx.cons hdir hfound hmore
        · intro hfull _
          refine ⟨rfl, ip, fun jp hj => ?_⟩
          have := hfull jp
          rw [hu.ref, Pi.single_eq_of_ne hj] at this
          exact this

theorem namex_spec {parent : Bool} {path : List UInt8} {name : ℕ → UInt8} (h : FsInv sb s) (htree : Tree sb s)
    (hcwd : 0 < (s.itable cwd).ref) (htype : (attr sb s (s.itable cwd).inum).type ≠ 0) (hpath : 0 ∉ path) :
    wp (namex sb cwd path parent name) s
      (fun r t => Found sb s t parent (startInum s cwd path) (components path) r)
      (fun e => e = "iget: no inodes" ∧ TableFull s) := by
  simp only [namex, wp_ite, wp_bind, startInum]
  split_ifs with hslash
  · refine wp_mono (iget_effect h htree.root.1) ?_ ?_
    · intro ip t hgot
      have ht := (Holds.refl h).got hgot
      rw [zero_add] at ht
      have hspec := namexFrom_spec parent name htree ht (by rw [hgot.inum]; exact htree.root) hpath
        (Nat.lt_succ_self _)
      rw [hgot.inum] at hspec
      exact hspec
    · rintro e ⟨rfl, hfull⟩
      exact ⟨rfl, ⟨0, by decide⟩, fun jp _ => hfull jp⟩
  · simp only [idup, inode, setInode, wp_bind, wp_get, wp_pure, wp_modify]
    have ht : Holds sb s ⟨s.cache, s.saved, update s.itable cwd
        { s.itable cwd with ref := (s.itable cwd).ref + 1 }⟩ (Pi.single cwd 1) := by
      refine ⟨h.setInode rfl rfl rfl (fun _ => ⟨(h.table cwd hcwd).1, (h.table cwd hcwd).2, h.ne_inum hcwd⟩), rfl,
        fun jp => ?_, fun jp _ => ?_⟩
      all_goals
        dsimp only
        by_cases hj : jp = cwd
        · subst hj
          simp only [update_self, Pi.single_eq_same]
        · simp only [update_of_ne hj, Pi.single_eq_of_ne hj, Nat.add_zero]
    have hself : (update s.itable cwd { s.itable cwd with ref := (s.itable cwd).ref + 1 } cwd).inum =
        (s.itable cwd).inum := by rw [update_self]
    have hlive : Live sb s (s.itable cwd).inum := ⟨(h.table cwd hcwd).1, htype, Or.inr ⟨cwd, hcwd, rfl⟩⟩
    have hspec := namexFrom_spec parent name htree ht (by rw [hself]; exact hlive) hpath
      (Nat.lt_succ_self _)
    rw [hself] at hspec
    exact hspec

theorem exists_of_returns {m : (ℕ → UInt8) → FsM (Option (Fin nInode))} {o : Option ℕ}
    (h : ∀ name, wp (m name) s (fun r t => Returns sb s t r o) (fun e => e = "iget: no inodes" ∧ TableFull s))
    (ho : o = some i) (hroom : ¬ TableFull s) (name : ℕ → UInt8) :
    ∃ ip t, m name s = .ok (some ip, t) ∧ (t.itable ip).inum = i ∧ (t.itable ip).ref = (s.itable ip).ref + 1 := by
  obtain ⟨r, t, hrun, hret⟩ :=
    exists_ok (wp_mono (h name) (fun _ _ hq => hq) (fun _ he => hroom he.2))
  rw [ho] at hret
  cases r with
  | none => exact hret.elim
  | some ip =>
    refine ⟨ip, t, hrun, hret.2, ?_⟩
    rw [hret.1.ref, Pi.single_eq_same]

/-- Path resolution: `namei` and `nameiparent` return what folding `dirlookup` over the names of the path finds, with one new
reference to it. -/
theorem path_resolution {path : List UInt8} (h : FsInv sb s) (htree : Tree sb s) (hcwd : 0 < (s.itable cwd).ref)
    (htype : (attr sb s (s.itable cwd).inum).type ≠ 0) (hpath : 0 ∉ path) :
    (∀ name fuel, path.length < fuel → elements fuel path name = (runs path).map (List.take dirSiz)) ∧
      (∀ name, wp (namei sb cwd path name) s
        (fun r t => Returns sb s t r (resolve sb s (startInum s cwd path) (components path)))
        (fun e => e = "iget: no inodes" ∧ TableFull s)) ∧
      (∀ name, wp (nameiparent sb cwd path name) s
        (fun r t => Returns sb s t (r.map Prod.fst)
            ((resolveParent sb s (startInum s cwd path) (components path)).map Prod.fst) ∧
          r.map (fun x => cstr dirSiz x.2) =
            (resolveParent sb s (startInum s cwd path) (components path)).map Prod.snd)
        (fun e => e = "iget: no inodes" ∧ TableFull s)) ∧
      (components path = [] → resolveParent sb s (startInum s cwd path) (components path) = none) ∧
      (components path ≠ [] → resolve sb s (startInum s cwd path) (components path) =
        (resolveParent sb s (startInum s cwd path) (components path)).bind
          fun p => lookup (contents sb s p.1) p.2) := by
  refine ⟨fun name fuel hf => elements_eq hpath hf name, ?_, ?_, ?_, resolve_eq_bind⟩
  · intro name
    simp only [namei, wp_bind, wp_pure]
    exact namex_spec h htree hcwd htype hpath
  · intro name
    exact namex_spec h htree hcwd htype hpath
  · intro hnil
    rw [hnil, resolveParent_nil]

def selfRun : List ℤ × FsState :=
  (DirOp.execAll mkfsSuperblock firstSlot [.dirlink nameA rootIno] emptyDir).toOption.get (by decide +kernel)

theorem selfRun_some :
    (DirOp.execAll mkfsSuperblock firstSlot [.dirlink nameA rootIno] emptyDir).toOption = some selfRun := by
  rw [selfRun, Option.some_get]

-- The elaborator would run the model when it looks at the type of a triple.
attribute [irreducible] selfRun

def selfDir : FsState := selfRun.2

theorem selfDir_spec : HeldDir mkfsSuperblock selfDir firstSlot ∧
    lookup (contents mkfsSuperblock selfDir rootIno) = update (fun _ => none) [97] (some rootIno) := by
  have hrun := ok_of_toOption selfRun_some
  rw [← Prod.mk.eta (p := selfRun), ← selfDir] at hrun
  have hvalid : ∀ op ∈ [DirOp.dirlink nameA rootIno], op.Valid mkfsSuperblock := by
    intro op hop
    rw [List.mem_singleton.mp hop]
    exact ⟨by decide, by decide, by decide⟩
  obtain ⟨hheld, -, -, hspec⟩ := DirOp.execAll_ok emptyDir_held hvalid hrun
  refine ⟨hheld, ?_⟩
  have hinum : (emptyDir.itable firstSlot).inum = rootIno := by decide +kernel
  rw [emptyDir_nil, hinum] at hspec
  have hname : cstr dirSiz nameA = [97] := by decide +kernel
  have hnil : lookup [] = fun _ => none := rfl
  simp only [DirOp.specAll, DirOp.spec, hnil, hname] at hspec
  rw [Prod.mk.injEq] at hspec
  exact hspec.2

theorem selfDir_tree : Tree mkfsSuperblock selfDir := by
  have hdirs : ∀ i < mkfsSuperblock.ninodes, (attr mkfsSuperblock selfDir i).type = dirType → i = rootIno := by
    decide +kernel
  have hroot : Live mkfsSuperblock selfDir rootIno :=
    ⟨by decide, by decide +kernel, Or.inr ⟨firstSlot, by decide +kernel, by decide +kernel⟩⟩
  have hinum : (selfDir.itable firstSlot).inum = rootIno := by decide +kernel
  refine ⟨hroot, ?_, ?_⟩
  · intro i hi hty
    rw [hdirs i hi hty, ← hinum]
    exact selfDir_spec.1.dir
  · intro i hi hty n j hj
    rw [hdirs i hi hty, selfDir_spec.2] at hj
    by_cases hn : n = [97]
    · rw [hn, update_self] at hj
      cases hj
      exact hroot
    · rw [update_of_ne hn] at hj
      cases hj

theorem path_leads_to_root :
    ∃ ip t, namei mkfsSuperblock firstSlot [slash, slash, 97] (fun _ => 0) selfDir = .ok (some ip, t) ∧
      (t.itable ip).inum = rootIno ∧ (t.itable ip).ref = (selfDir.itable ip).ref + 1 := by
  have htype : (attr mkfsSuperblock selfDir (selfDir.itable firstSlot).inum).type ≠ 0 := by decide +kernel
  have hpath : 0 ∉ [slash, slash, 97] := by decide
  have hres : resolve mkfsSuperblock selfDir (startInum selfDir firstSlot [slash, slash, 97])
      (components [slash, slash, 97]) = some rootIno := by decide +kernel
  have hroom : ¬ TableFull selfDir := by
    rintro ⟨ip, hfull⟩
    have h₁ : (selfDir.itable ⟨1, by decide⟩).ref = 0 := by decide +kernel
    have h₂ : (selfDir.itable ⟨2, by decide⟩).ref = 0 := by decide +kernel
    by_cases hip : ip = ⟨1, by decide⟩
    · have := hfull ⟨2, by decide⟩ (by rw [hip]; decide)
      omega
    · have := hfull ⟨1, by decide⟩ (Ne.symm hip)
      omega
  obtain ⟨-, hnamei, -⟩ := path_resolution selfDir_spec.1.inv selfDir_tree selfDir_spec.1.ref htype hpath
  exact exists_of_returns hnamei hres hroom (fun _ => 0)

end Xv6.Fs
