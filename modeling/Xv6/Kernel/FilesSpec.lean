import Xv6.Kernel.ImageSpec

namespace Xv6.Kernel

open Lib Vm Prog
open Function (update update_of_ne update_self update_apply update_eq_self update_idem)

def FileRef.file : FileRef → Fin nFile
  | .fresh f => f
  | .ref f => f
  | .map f => f

variable {sys : Sys} {strict : Prop} {ok : Panic → Prop} {s : Shared} {T : Tokens} {F F' : Multiset FileRef}
variable {l : Local} {f : Fin nFile} {file : File} {r : FileRef}

theorem ofFiles_add (F F' : Multiset FileRef) : ofFiles (F + F') = ofFiles F + ofFiles F' := rfl

theorem ofEnds_add (E E' : Multiset (ℕ × Bool)) : ofEnds (E + E') = ofEnds E + ofEnds E' := rfl

theorem FilesOk.setFile (h : FilesOk s F) (hother : ∀ r, r.file ≠ f → F'.count r = F.count r)
    (hcount : file.ref = F'.count (.fresh f) + F'.count (.ref f) + F'.count (.map f))
    (hfree : file.ref = 0 → file.type = .none)
    (hfresh : .fresh f ∈ F' → file.ref = 1 ∧ file.type = .none)
    (hmapped : .map f ∈ F' → file.type = .inode) : FilesOk (s.setFile f file) F' := by
  have hne : ∀ g, g ≠ f → (s.setFile f file).ftable g = s.ftable g := fun g hg => update_of_ne hg _ _
  have hself : (s.setFile f file).ftable f = file := update_self _ _ _
  have hmem : ∀ r, r.file ≠ f → r ∈ F' → r ∈ F := fun r hr hin =>
    Multiset.count_pos.mp (hother r hr ▸ Multiset.count_pos.mpr hin)
  refine ⟨fun g => ?_, fun g => ?_, fun g => ?_, fun g => ?_⟩ <;> by_cases hg : g = f
  · subst hg
    rw [hself, hcount]
  · rw [hne g hg, hother (.fresh g) hg, hother (.ref g) hg, hother (.map g) hg]
    exact h.count g
  · subst hg
    rw [hself]
    exact hfree
  · rw [hne g hg]
    exact h.free g
  · subst hg
    rw [hself]
    exact hfresh
  · rw [hne g hg]
    exact fun hin => h.fresh g (hmem _ hg hin)
  · subst hg
    rw [hself]
    exact hmapped
  · rw [hne g hg]
    exact fun hin => h.mapped g (hmem _ hg hin)

def File.Holds (file : File) (page : ℕ) (writable : Bool) : Prop :=
  0 < file.ref ∧ file.type = .pipe ∧ file.pipe = page ∧ file.writable = writable

instance (file : File) (page : ℕ) (writable : Bool) : Decidable (file.Holds page writable) :=
  inferInstanceAs (Decidable (_ ∧ _ ∧ _ ∧ _))

theorem mem_holders {p : ℕ} {w : Bool} : f ∈ holders s p w ↔ (s.ftable f).Holds p w := by
  simp [holders, File.Holds]

theorem holders_setFile {p : ℕ} {w : Bool} (h : file.Holds p w ↔ (s.ftable f).Holds p w) :
    holders (s.setFile f file) p w = holders s p w := by
  ext g
  rw [mem_holders, mem_holders]
  by_cases hg : g = f
  · subst hg
    rw [show (s.setFile g file).ftable g = file from update_self _ _ _]
    exact h
  · rw [show (s.setFile f file).ftable g = s.ftable g from update_of_ne hg _ _]

theorem PipesOk.setFile {E : Multiset (ℕ × Bool)} (h : PipesOk sys s E)
    (hh : ∀ p w, file.Holds p w ↔ (s.ftable f).Holds p w) : PipesOk sys (s.setFile f file) E :=
  ⟨h.inPool, h.isOpen, fun p w => by rw [holders_setFile (hh p w)]; exact h.count p w⟩

theorem Balanced.setFile {T' : Tokens} (h : Balanced sys s T) (hpages : T'.1 = T.1)
    (hfiles : FilesOk (s.setFile f file) T'.2.1) (hpipes : PipesOk sys (s.setFile f file) T'.2.2.1)
    (hslots : T'.2.2.2 = T.2.2.2) : Balanced sys (s.setFile f file) T' :=
  ⟨by rw [hpages]; exact h.pages, hfiles, hpipes, hslots.trans h.slots⟩

theorem count_add_singleton (F : Multiset FileRef) (r r' : FileRef) :
    (F + {r}).count r' = F.count r' + if r' = r then 1 else 0 := by
  rw [Multiset.count_add, Multiset.count_singleton]

theorem count_add_other (hr : r.file = f) {r' : FileRef} (hr' : r'.file ≠ f) :
    (F + {r}).count r' = F.count r' := by
  have hne : r' ≠ r := by
    rintro rfl
    exact hr' hr
  rw [count_add_singleton, if_neg hne, add_zero]

theorem Balanced.filealloc (h : Balanced sys s T) (href : (s.ftable f).ref = 0) :
    Balanced sys (s.setFile f { s.ftable f with ref := 1 }) (T + ofFiles {.fresh f}) := by
  have hfiles := h.files
  have hcount := hfiles.count f
  have htype := hfiles.free f href
  refine h.setFile (add_zero _) ?_ ?_ (add_zero _)
  · refine hfiles.setFile (fun r hr => count_add_other rfl hr) ?_ (by simp) (fun _ => ⟨rfl, htype⟩) ?_
    · simp only [ofFiles, Prod.snd_add, Prod.fst_add, count_add_singleton]
      simp
      omega
    · intro hin
      simp only [ofFiles, Prod.snd_add, Prod.fst_add, Multiset.mem_add, Multiset.mem_singleton, reduceCtorEq,
        or_false] at hin
      exact hfiles.mapped f hin
  · rw [show (T + ofFiles {.fresh f}).2.2.1 = T.2.2.1 from add_zero _]
    refine h.pipes.setFile (fun p w => ?_)
    simp [File.Holds, htype]

theorem FilesOk.ref_pos (h : FilesOk s F) (hr : r ∈ F) : 0 < (s.ftable r.file).ref := by
  have hpos := Multiset.count_pos.mpr hr
  rw [h.count]
  cases r <;> simp only [FileRef.file] <;> omega

theorem FilesOk.not_fresh (h : FilesOk s F) (hr : r ∈ F) (hne : r ≠ .fresh r.file) : .fresh r.file ∉ F := by
  intro hin
  have hone := (h.fresh _ hin).1
  have h1 := Multiset.count_pos.mpr hin
  have h2 := Multiset.count_pos.mpr hr
  rw [h.count] at hone
  cases r with
  | fresh g => exact hne rfl
  | ref g =>
    simp only [FileRef.file] at *
    omega
  | map g =>
    simp only [FileRef.file] at *
    omega

theorem Balanced.filedup {r' : FileRef} (h : Balanced sys s T) (hr : r ∈ T.2.1) (hne : r ≠ .fresh r.file)
    (hr' : r' = .ref r.file ∨ r' = .map r.file ∧ (s.ftable r.file).type = .inode) :
    Balanced sys (s.setFile r.file { s.ftable r.file with ref := (s.ftable r.file).ref + 1 })
      (T + ofFiles {r'}) := by
  have hfiles := h.files
  have hpos := hfiles.ref_pos hr
  have hnot := hfiles.not_fresh hr hne
  have hfile : r'.file = r.file := by rcases hr' with rfl | ⟨rfl, -⟩ <;> rfl
  refine h.setFile (add_zero _) ?_ ?_ (add_zero _)
  · refine hfiles.setFile (fun r₀ hr₀ => count_add_other hfile hr₀) ?_ (by simp) (fun hin => ?_) (fun hin => ?_)
    · simp only [ofFiles, Prod.snd_add, Prod.fst_add, count_add_singleton, hfiles.count]
      rcases hr' with rfl | ⟨rfl, -⟩ <;> simp <;> omega
    · simp only [ofFiles, Prod.snd_add, Prod.fst_add, Multiset.mem_add, Multiset.mem_singleton] at hin
      rcases hr' with rfl | ⟨rfl, -⟩ <;> simp [hnot] at hin
    · simp only [ofFiles, Prod.snd_add, Prod.fst_add, Multiset.mem_add, Multiset.mem_singleton] at hin
      rcases hr' with rfl | ⟨rfl, htype⟩
      · exact hfiles.mapped _ (by simpa using hin)
      · exact htype
  · rw [show (T + ofFiles {r'}).2.2.1 = T.2.2.1 from add_zero _]
    refine h.pipes.setFile (fun p w => ?_)
    simp [File.Holds, hpos]

theorem Balanced.fileref (h : Balanced sys s (T + ofFiles {r})) (hlast : 1 < (s.ftable r.file).ref) :
    Balanced sys (s.setFile r.file { s.ftable r.file with ref := (s.ftable r.file).ref - 1 }) T := by
  have hfiles : FilesOk s (T.2.1 + {r}) := h.files
  have hcount := hfiles.count r.file
  have hnot : .fresh r.file ∉ T.2.1 + {r} := fun hin => by
    have := (hfiles.fresh _ hin).1
    omega
  have hsub : ∀ r', r' ∈ T.2.1 → r' ∈ T.2.1 + {r} := fun r' hr' => Multiset.mem_add.mpr (Or.inl hr')
  refine h.setFile (add_zero _).symm ?_ ?_ (add_zero _).symm
  · refine hfiles.setFile (fun r₀ hr₀ => (count_add_other rfl hr₀).symm) ?_ (by simp; omega)
      (fun hin => absurd (hsub _ hin) hnot) (fun hin => hfiles.mapped _ (hsub _ hin))
    simp only [count_add_singleton] at hcount
    cases r <;> simp [FileRef.file] at hcount ⊢ <;> omega
  · rw [show T.2.2.1 = (T + ofFiles {r}).2.2.1 from (add_zero _).symm]
    refine h.pipes.setFile (fun p w => ?_)
    have : 0 < (s.ftable r.file).ref - 1 ↔ 0 < (s.ftable r.file).ref := by omega
    simp [File.Holds, this]

theorem holders_erase (h : ∀ p w, ¬ file.Holds p w) (p : ℕ) (w : Bool) :
    holders (s.setFile f file) p w = (holders s p w).erase f := by
  ext g
  rw [Finset.mem_erase, mem_holders, mem_holders]
  by_cases hg : g = f
  · subst hg
    rw [show (s.setFile g file).ftable g = file from update_self _ _ _]
    simp [h p w]
  · rw [show (s.setFile f file).ftable g = s.ftable g from update_of_ne hg _ _]
    simp [hg]

theorem holders_insert {p : ℕ} {w : Bool} (h : file.Holds p w) :
    holders (s.setFile f file) p w = insert f (holders s p w) := by
  ext g
  rw [Finset.mem_insert, mem_holders, mem_holders]
  by_cases hg : g = f
  · subst hg
    rw [show (s.setFile g file).ftable g = file from update_self _ _ _]
    simp [h]
  · rw [show (s.setFile f file).ftable g = s.ftable g from update_of_ne hg _ _]
    simp [hg]

theorem card_holders_setFile {p : ℕ} {w : Bool} (h : ¬ (s.ftable f).Holds p w) :
    (holders (s.setFile f file) p w).card = (holders s p w).card + if file.Holds p w then 1 else 0 := by
  by_cases hh : file.Holds p w
  · rw [holders_insert hh, if_pos hh, Finset.card_insert_of_notMem (fun hm => h (mem_holders.mp hm))]
  · rw [holders_setFile (iff_of_false hh h), if_neg hh, add_zero]

def File.endTokens (file : File) : Tokens :=
  if file.type = .pipe then ofEnds {(file.pipe, file.writable)} else 0

theorem count_endTokens (file : File) (p : ℕ) (w : Bool) (href : 0 < file.ref) :
    file.endTokens.2.2.1.count (p, w) = if file.Holds p w then 1 else 0 := by
  unfold File.endTokens File.Holds
  by_cases ht : file.type = .pipe
  · simp only [ht, ↓reduceIte, ofEnds, Multiset.count_singleton, Prod.mk.injEq, href, true_and]
    simp only [eq_comm]
  · simp [ht]

theorem Balanced.fileclose (h : Balanced sys s (T + ofFiles {r})) (hlast : (s.ftable r.file).ref = 1) :
    Balanced sys (s.setFile r.file { s.ftable r.file with ref := 0, type := .none })
      (T + (s.ftable r.file).endTokens) := by
  have hfiles : FilesOk s (T.2.1 + {r}) := h.files
  have hcount := hfiles.count r.file
  have hzero : T.2.1.count (.fresh r.file) = 0 ∧ T.2.1.count (.ref r.file) = 0 ∧
      T.2.1.count (.map r.file) = 0 := by
    rw [hlast] at hcount
    simp only [count_add_singleton] at hcount
    cases r <;> simp [FileRef.file, -Multiset.count_eq_zero] at hcount ⊢ <;> omega
  have hend : (T + (s.ftable r.file).endTokens).1 = T.1 ∧
      (T + (s.ftable r.file).endTokens).2.1 = T.2.1 ∧
      (T + (s.ftable r.file).endTokens).2.2.2 = T.2.2.2 := by
    unfold File.endTokens
    split_ifs <;> exact ⟨add_zero _, add_zero _, add_zero _⟩
  apply h.setFile (hend.1.trans (add_zero _).symm) ?_ ?_ (hend.2.2.trans (add_zero _).symm)
  · rw [hend.2.1]
    apply hfiles.setFile (fun r₀ hr₀ => (count_add_other rfl hr₀).symm)
    · simp [hzero]
    · exact fun _ => rfl
    · exact fun hin => absurd (Multiset.count_eq_zero.mp hzero.1) (not_not_intro hin)
    · exact fun hin => absurd (Multiset.count_eq_zero.mp hzero.2.2) (not_not_intro hin)
  · have hpipes : PipesOk sys s (T.2.2.1 + 0) := h.pipes
    refine ⟨hpipes.inPool, hpipes.isOpen, fun p w => ?_⟩
    have hpw := hpipes.count p w
    rw [add_zero] at hpw
    rw [holders_erase (fun p w => by simp [File.Holds])]
    simp only [Prod.snd_add, Prod.fst_add, Multiset.count_add]
    rw [count_endTokens _ _ _ (by omega)]
    refine Eq.trans ?_ hpw
    by_cases hh : (s.ftable r.file).Holds p w
    · have hmem := mem_holders.mpr hh
      have hpos : 0 < (holders s p w).card := Finset.card_pos.mpr ⟨r.file, hmem⟩
      rw [if_pos hh, Finset.card_erase_of_mem hmem]
      omega
    · rw [if_neg hh, Finset.erase_eq_of_notMem (fun hmem => hh (mem_holders.mp hmem)), add_zero]

theorem Pipe.isOpen_close (pi : Pipe) (w w' : Bool) :
    (pi.close w).isOpen w' = if w' = w then false else pi.isOpen w' := by
  cases w <;> cases w' <;> simp [Pipe.close, Pipe.isOpen]

def Shared.setPipe (s : Shared) (page : ℕ) (o : Option Pipe) : Shared :=
  { s with pipes := update s.pipes page o }

theorem pipes_setPipe (page p : ℕ) (o : Option Pipe) :
    (s.setPipe page o).pipes p = if p = page then o else s.pipes p := update_apply _ _ _ _

theorem pipePages_congr {s' : Shared} (h : ∀ p, (s'.pipes p).isSome = (s.pipes p).isSome) :
    sys.pipePages s' = sys.pipePages s := by
  simp only [Sys.pipePages, h]

theorem pipePages_insert {page : ℕ} (pi : Pipe) (hin : sys.InPool page) (hnone : s.pipes page = none) :
    sys.pipePages (s.setPipe page (some pi)) = page ::ₘ sys.pipePages s := by
  have hnot : page ∉ sys.pool.filter (fun p => (s.pipes p).isSome) := by simp [hnone]
  have hset : sys.pool.filter (fun p => ((s.setPipe page (some pi)).pipes p).isSome) =
      insert page (sys.pool.filter (fun p => (s.pipes p).isSome)) := by
    ext p
    simp only [Finset.mem_filter, Finset.mem_insert, pipes_setPipe]
    by_cases hp : p = page
    · subst hp
      simp [Sys.pool, hin.1, hin.2]
    · simp [hp]
  rw [Sys.pipePages, hset, Finset.insert_val_of_notMem hnot]
  rfl

theorem setPipe_setPipe (page : ℕ) (o o' : Option Pipe) : (s.setPipe page o).setPipe page o' = s.setPipe page o' := by
  simp only [Shared.setPipe, update_idem]

theorem setPipe_self (page : ℕ) : s.setPipe page (s.pipes page) = s := by
  simp only [Shared.setPipe, update_eq_self]

theorem Balanced.open_of_end {page : ℕ} {w : Bool} (h : Balanced sys s (T + ofEnds {(page, w)})) :
    ∃ pi, s.pipes page = some pi ∧ pi.isOpen w = true ∧ T.2.2.1.count (page, w) = 0 ∧
      (holders s page w).card = 0 := by
  have hpipes : PipesOk sys s (T.2.2.1 + {(page, w)}) := h.pipes
  have hc := hpipes.count page w
  rw [Multiset.count_add, Multiset.count_singleton_self] at hc
  cases hpi : s.pipes page with
  | none =>
    rw [hpi] at hc
    simp at hc
  | some pi =>
    rw [hpi] at hc
    by_cases hopen : pi.isOpen w
    · rw [if_pos (by simpa using hopen)] at hc
      exact ⟨pi, rfl, hopen, by omega, by omega⟩
    · rw [if_neg (by simpa using hopen)] at hc
      omega

theorem PipesOk.close {page : ℕ} {w : Bool} {E : Multiset (ℕ × Bool)} {pi : Pipe} {o : Option Pipe}
    (h : PipesOk sys s (E + {(page, w)})) (hpi : s.pipes page = some pi) (hzero : E.count (page, w) = 0)
    (hholders : (holders s page w).card = 0) (hopen : ∀ pi', o = some pi' → pi'.readopen ∨ pi'.writeopen)
    (hany : ∀ w', o.any (·.isOpen w') = (pi.close w).isOpen w') : PipesOk sys (s.setPipe page o) E := by
  constructor
  · intro p hp
    rw [pipes_setPipe] at hp
    by_cases hpage : p = page
    · subst hpage
      exact h.inPool p (by simp [hpi])
    · exact h.inPool p (by rwa [if_neg hpage] at hp)
  · intro p pi' hp
    rw [pipes_setPipe] at hp
    by_cases hpage : p = page
    · rw [if_pos hpage] at hp
      exact hopen pi' hp
    · rw [if_neg hpage] at hp
      exact h.isOpen p pi' hp
  · intro p w'
    have hc := h.count p w'
    rw [Multiset.count_add, Multiset.count_singleton] at hc
    change E.count (p, w') + (holders s p w').card = _
    rw [pipes_setPipe]
    by_cases hpage : p = page
    · subst hpage
      rw [if_pos rfl, hany, Pipe.isOpen_close]
      by_cases hw : w' = w
      · subst hw
        simp [hzero, hholders]
      · rw [hpi] at hc
        simpa [hw] using hc
    · simpa [hpage] using hc

theorem Balanced.closeEnd_last {page : ℕ} {w : Bool} {pi : Pipe} (h : Balanced sys s (T + ofEnds {(page, w)}))
    (hpi : s.pipes page = some pi) (hl : ∀ w', (pi.close w).isOpen w' = false) :
    Balanced sys (s.setPipe page none) (T + ofPages {page}) := by
  obtain ⟨_, _, _, hzero, hholders⟩ := h.open_of_end
  have hpipes : PipesOk sys s (T.2.2.1 + {(page, w)}) := h.pipes
  have hpool := hpipes.inPool page (by simp [hpi])
  have hinsert : sys.pipePages s = page ::ₘ sys.pipePages (s.setPipe page none) := by
    have hi := pipePages_insert pi hpool
      (show (s.setPipe page none).pipes page = none by simp [pipes_setPipe])
    rwa [setPipe_setPipe, ← hpi, setPipe_self] at hi
  have hpages : T.1 + 0 + s.freelist + sys.pipePages s + sys.kernelPages = sys.pool.val := h.pages
  rw [hinsert] at hpages
  constructor
  · rw [← hpages, ← Multiset.singleton_add]
    change T.1 + {page} + (s.freelist : Multiset ℕ) + _ + _ = _
    abel
  · have hfiles : FilesOk s (T.2.1 + 0) := h.files
    exact ⟨hfiles.count, hfiles.free, hfiles.fresh, hfiles.mapped⟩
  · rw [show (T + ofPages {page}).2.2.1 = T.2.2.1 from add_zero _]
    exact hpipes.close hpi hzero hholders (by simp) (fun w' => (hl w').symm)
  · exact h.slots

theorem Balanced.closeEnd {page : ℕ} {w : Bool} {pi : Pipe} (h : Balanced sys s (T + ofEnds {(page, w)}))
    (hpi : s.pipes page = some pi) (hl : (pi.close w).readopen ∨ (pi.close w).writeopen) :
    Balanced sys (s.setPipe page (some (pi.close w))) T := by
  obtain ⟨_, _, _, hzero, hholders⟩ := h.open_of_end
  have hpipes : PipesOk sys s (T.2.2.1 + {(page, w)}) := h.pipes
  have hpages : T.1 + 0 + s.freelist + sys.pipePages s + sys.kernelPages = sys.pool.val := h.pages
  constructor
  · rw [pipePages_congr (s := s)]
    · rwa [add_zero] at hpages
    · intro p
      rw [pipes_setPipe]
      split_ifs with hp
      · rw [hp, hpi]
        rfl
      · rfl
  · have hfiles : FilesOk s (T.2.1 + 0) := h.files
    rw [add_zero] at hfiles
    exact ⟨hfiles.count, hfiles.free, hfiles.fresh, hfiles.mapped⟩
  · apply hpipes.close hpi hzero hholders
    · rintro pi' ⟨⟩
      exact hl
    · exact fun _ => rfl
  · exact (add_zero _).symm.trans h.slots

theorem KInv.exchange {m m' rest : Tokens} {s' : Shared} (h : KInv sys strict s (m + rest))
    (hprocs : s'.procs = s.procs) (hb : ∀ T, Balanced sys s (m + T) → Balanced sys s' (m' + T)) :
    KInv sys strict s' (m' + rest) := by
  constructor
  · have hparked : s'.parked = s.parked := by simp only [Shared.parked, hprocs]
    rw [hparked, add_assoc]
    apply hb
    rw [← add_assoc]
    exact h.balanced
  · rw [hprocs]
    exact h.records

def Local.takeFresh (l : Local) (f : Fin nFile) : Local := { l with fresh := f ::ₘ l.fresh }

theorem tokens_takeFresh : (l.takeFresh f).tokens = l.tokens + ofFiles {.fresh f} := by
  simp only [Local.tokens, Local.takeFresh, ← Multiset.singleton_add, Multiset.map_add,
    Multiset.map_singleton, ofFiles_add]
  abel

theorem wp_filealloc {Q : Option (Fin nFile) → Local → Prop} (hnone : Q none l)
    (hsome : ∀ f, Q (some f) (l.takeFresh f)) : wp (ledger sys strict) ok filealloc l Q := by
  intro s rest hs
  simp only [allocFile]
  cases hf : (List.finRange nFile).find? (fun f => (s.ftable f).ref = 0) with
  | none => exact ⟨hs, hnone⟩
  | some f =>
    have href : (s.ftable f).ref = 0 := by simpa using List.find?_some hf
    refine ⟨?_, hsome f⟩
    apply KInv.exchange hs
    · rfl
    · intro T hb
      change Balanced sys _ ((l.takeFresh f).tokens + T)
      rw [tokens_takeFresh, add_right_comm]
      exact hb.filealloc href

theorem wp_filedup {put : Local → Local} {r' : FileRef} {Q : Unit → Local → Prop} (hr : r ∈ l.tokens.2.1)
    (hne : r ≠ .fresh r.file) (hr' : r' = .ref r.file ∨ r' = .map r.file ∧ r = .map r.file)
    (hput : (put l).tokens = l.tokens + ofFiles {r'}) (hQ : Q () (put l)) :
    wp (ledger sys strict) ok (filedup r.file put) l Q := by
  apply wp_step
  intro s rest hs
  have hmem (T : Tokens) : r ∈ (l.tokens + T).2.1 := Multiset.mem_add.mpr (Or.inl hr)
  have hfiles : FilesOk s (l.tokens + (rest + s.parked)).2.1 := by
    rw [← add_assoc]
    exact hs.balanced.files
  have hpos := hfiles.ref_pos (hmem _)
  simp only
  rw [if_neg (by omega)]
  refine ⟨?_, hQ⟩
  apply KInv.exchange hs
  · rfl
  · intro T hb
    rw [show (ledger sys strict).tok (put l) = _ from hput, add_right_comm]
    apply hb.filedup (hmem T) hne
    apply hr'.imp_right
    rintro ⟨hmap, hrm⟩
    have hin := hmem (rest + s.parked)
    rw [hrm] at hin
    exact ⟨hmap, hfiles.mapped _ hin⟩

def Local.takeEnd (l : Local) (e : ℕ × Bool) : Local := { l with ends := e ::ₘ l.ends }

theorem tokens_takeEnd {e : ℕ × Bool} : (l.takeEnd e).tokens = l.tokens + ofEnds {e} := by
  simp only [Local.tokens, Local.takeEnd, ← Multiset.singleton_add, ofEnds_add]
  abel

theorem wp_closeEnd {page : ℕ} {w : Bool} {Q : Bool → Local → Prop}
    (hlast : sys.InPool page → Q true (l.takePage page)) (hopen : Q false l) :
    wp (ledger sys strict) ok (closeEnd page w) (l.takeEnd (page, w)) Q := by
  intro s rest hs
  have hb : Balanced sys s ((l.tokens + (rest + s.parked)) + ofEnds {(page, w)}) := by
    have hbal := hs.balanced
    rwa [show (ledger sys strict).tok (l.takeEnd (page, w)) = _ from tokens_takeEnd, add_assoc,
      add_right_comm] at hbal
  obtain ⟨pi, hpi, -⟩ := hb.open_of_end
  have hpool := hb.pipes.inPool page (by simp [hpi])
  have herase : { l.takeEnd (page, w) with ends := (l.takeEnd (page, w)).ends.erase (page, w) } = l := by
    simp only [Local.takeEnd, Multiset.erase_cons_head]
  simp only [hpi, herase]
  cases hl : (!(pi.close w).readopen && !(pi.close w).writeopen) with
  | true =>
    refine ⟨?_, hlast hpool⟩
    apply KInv.exchange hs
    · rfl
    · intro T hb'
      change Balanced sys _ ((l.takePage page).tokens + T)
      rw [tokens_takePage, add_right_comm]
      rw [show (ledger sys strict).tok (l.takeEnd (page, w)) = _ from tokens_takeEnd, add_right_comm] at hb'
      apply hb'.closeEnd_last hpi
      intro w'
      simp only [Bool.and_eq_true, Bool.not_eq_true'] at hl
      cases w' <;> simp [Pipe.isOpen, hl]
  | false =>
    refine ⟨?_, hopen⟩
    apply KInv.exchange hs
    · rfl
    · intro T hb'
      rw [show (ledger sys strict).tok (l.takeEnd (page, w)) = _ from tokens_takeEnd, add_right_comm] at hb'
      apply hb'.closeEnd hpi
      simp only [Bool.and_eq_false_iff, Bool.not_eq_false'] at hl
      exact hl

theorem wp_pipeclose {page : ℕ} {w : Bool} {Q : Unit → Local → Prop} (hQ : Q () l) :
    wp (ledger sys strict) ok (pipeclose sys page w) (l.takeEnd (page, w)) Q := by
  rw [pipeclose, wp_bind]
  apply wp_closeEnd
  · intro hpool
    rw [if_pos rfl]
    apply wp_kfree hpool
    · rw [dropPage_takePage, tokens_takePage]
    · rwa [dropPage_takePage]
  · exact hQ

theorem wp_releaseFile {drop : Local → Local} {Q : Option File → Local → Prop}
    (hdrop : (drop l).tokens + ofFiles {r} = l.tokens) (hmore : Q none (drop l))
    (hpipe : ∀ ff, ff.type = .pipe → Q (some ff) ((drop l).takeEnd (ff.pipe, ff.writable)))
    (hother : ∀ ff, ff.type ≠ .pipe → Q (some ff) (drop l)) :
    wp (ledger sys strict) ok (releaseFile r.file drop) l Q := by
  apply wp_step
  intro s rest hs
  have hfiles : FilesOk s ((drop l).tokens + (rest + s.parked) + ofFiles {r}).2.1 := by
    rw [add_right_comm, hdrop, ← add_assoc]
    exact hs.balanced.files
  have hpos : 0 < (s.ftable r.file).ref := by
    apply hfiles.ref_pos
    exact Multiset.mem_add.mpr (Or.inr (Multiset.mem_singleton_self r))
  have hexchange (s' : Shared) (m' : Tokens) (hprocs : s'.procs = s.procs)
      (hb : ∀ T, Balanced sys s (T + ofFiles {r}) → Balanced sys s' (T + m')) :
      KInv sys strict s' ((drop l).tokens + m' + rest) := by
    apply KInv.exchange hs hprocs
    intro T hT
    rw [show (ledger sys strict).tok l = _ from hdrop.symm, add_right_comm] at hT
    rw [add_right_comm]
    exact hb _ hT
  simp only
  rw [if_neg (by omega)]
  by_cases hmany : (s.ftable r.file).ref - 1 > 0
  · rw [if_pos hmany]
    refine ⟨?_, hmore⟩
    have hk := hexchange (s.setFile r.file { s.ftable r.file with ref := (s.ftable r.file).ref - 1 }) 0 rfl
      (fun T hT => by rw [add_zero]; exact hT.fileref (by omega))
    rwa [add_zero] at hk
  · rw [if_neg hmany]
    have hk := hexchange (s.setFile r.file { s.ftable r.file with ref := 0, type := .none })
      (s.ftable r.file).endTokens rfl (fun T hT => hT.fileclose (by omega))
    by_cases htype : (s.ftable r.file).type = .pipe
    · rw [if_pos htype]
      refine ⟨?_, hpipe _ htype⟩
      rw [File.endTokens, if_pos htype, ← tokens_takeEnd] at hk
      exact hk
    · rw [if_neg htype]
      refine ⟨?_, hother _ htype⟩
      rw [File.endTokens, if_neg htype, add_zero] at hk
      exact hk

theorem wp_fileclose {drop : Local → Local} {Q : Unit → Local → Prop} (hfs : ∀ msg, ok (.fs msg))
    (hdrop : (drop l).tokens + ofFiles {r} = l.tokens) (hQ : Q () (drop l)) :
    wp (ledger sys strict) ok (fileclose sys r.file drop) l Q := by
  rw [fileclose, wp_bind]
  apply wp_releaseFile hdrop
  · exact hQ
  · intro ff htype
    simp only [htype]
    exact wp_pipeclose hQ
  · intro ff htype
    cases hff : ff.type with
    | pipe => exact absurd hff htype
    | inode =>
      simp only [hff]
      exact wp_fsCall hfs (fun _ => hQ)
    | device =>
      simp only [hff]
      exact wp_fsCall hfs (fun _ => hQ)
    | none =>
      simp only [hff]
      exact hQ

theorem Balanced.page_fresh {page : ℕ} (h : Balanced sys s (T + ofPages {page})) :
    sys.InPool page ∧ s.pipes page = none := by
  have hpages : T.1 + {page} + s.freelist + sys.pipePages s + sys.kernelPages = sys.pool.val := h.pages
  have hin : sys.InPool page := by
    apply inPool_of_mem
    apply Multiset.mem_of_le hpages.le
    simp
  refine ⟨hin, ?_⟩
  by_contra hne
  have hmem : page ∈ sys.pipePages s := by
    rw [Sys.pipePages, Finset.mem_val, Finset.mem_filter]
    exact ⟨Finset.mem_Ico.mpr hin, Option.isSome_iff_ne_none.mpr hne⟩
  have hnodup : (T.1 + {page} + s.freelist + sys.pipePages s + sys.kernelPages).Nodup := hpages ▸ sys.pool.nodup
  have hcount := Multiset.nodup_iff_count_le_one.mp hnodup page
  have hpos := Multiset.count_pos.mpr hmem
  simp only [Multiset.count_add, Multiset.count_singleton_self] at hcount
  omega

theorem FilesOk.settle {F : Multiset FileRef} (h : FilesOk s (F + {.fresh f})) (href : file.ref = 1) :
    FilesOk (s.setFile f file) (F + {.ref f}) := by
  have hone := (h.fresh f (by simp)).1
  have hcount := h.count f
  rw [hone] at hcount
  simp only [count_add_singleton] at hcount
  simp at hcount
  have hfresh : F.count (.fresh f) = 0 := by omega
  have hmap : F.count (.map f) = 0 := by omega
  have hrefs : F.count (.ref f) = 0 := by omega
  apply h.setFile
  · intro r hr
    rw [count_add_other rfl hr, count_add_other rfl hr]
  · simp only [count_add_singleton]
    simp [href, hfresh, hmap, hrefs]
  · intro hzero
    omega
  · intro hin
    simp only [Multiset.mem_add, Multiset.mem_singleton, reduceCtorEq, or_false] at hin
    exact absurd (Multiset.count_eq_zero.mp hfresh) (not_not_intro hin)
  · intro hin
    simp only [Multiset.mem_add, Multiset.mem_singleton, reduceCtorEq, or_false] at hin
    exact absurd (Multiset.count_eq_zero.mp hmap) (not_not_intro hin)

theorem Balanced.initPipe {f₀ f₁ : Fin nFile} {page : ℕ}
    (h : Balanced sys s (T + ofFiles {.fresh f₀} + ofFiles {.fresh f₁} + ofPages {page})) :
    Balanced sys (Kernel.initPipe f₀ f₁ page (s, l)).1 (T + ofFiles {.ref f₀} + ofFiles {.ref f₁}) := by
  obtain ⟨hin, hnone⟩ := h.page_fresh
  have hfiles : FilesOk s (T.2.1 + {.fresh f₀} + {.fresh f₁}) := by
    have hF : FilesOk s (T.2.1 + {.fresh f₀} + {.fresh f₁} + 0) := h.files
    rwa [add_zero] at hF
  have hpipes : PipesOk sys s (T.2.2.1 + 0 + 0 + 0) := h.pipes
  simp only [add_zero] at hpipes
  obtain ⟨href₀, htype₀⟩ := hfiles.fresh f₀ (by simp)
  obtain ⟨href₁, htype₁⟩ := hfiles.fresh f₁ (by simp)
  have hne : f₁ ≠ f₀ := by
    rintro rfl
    have hc := hfiles.count f₁
    rw [href₁] at hc
    simp only [Multiset.count_add, Multiset.count_singleton_self] at hc
    omega
  let s₁ := s.setPipe page (some ⟨true, true⟩)
  let file₀ := { s.ftable f₀ with type := .pipe, readable := true, writable := false, pipe := page }
  let file₁ := { s.ftable f₁ with type := .pipe, readable := false, writable := true, pipe := page }
  have hs : (Kernel.initPipe f₀ f₁ page (s, l)).1 = (s₁.setFile f₀ file₀).setFile f₁ file₁ := by
    simp only [Kernel.initPipe, s₁, file₀, file₁, Shared.setPipe, Shared.setFile, update_of_ne hne]
  have hfiles₁ : FilesOk s₁ (T.2.1 + {.fresh f₁} + {.fresh f₀}) := by
    rw [add_right_comm]
    exact ⟨hfiles.count, hfiles.free, hfiles.fresh, hfiles.mapped⟩
  have hfiles₂ : FilesOk (s₁.setFile f₀ file₀) (T.2.1 + {.fresh f₁} + {.ref f₀}) := hfiles₁.settle href₀
  rw [add_right_comm] at hfiles₂
  have hold₁ : (s₁.setFile f₀ file₀).ftable f₁ = s.ftable f₁ := update_of_ne hne _ _
  have hcard (p : ℕ) (w : Bool) : (holders ((s₁.setFile f₀ file₀).setFile f₁ file₁) p w).card =
      (holders s p w).card + if p = page then 1 else 0 := by
    have hh₀ : file₀.Holds p w ↔ p = page ∧ w = false := by
      simp [File.Holds, file₀, href₀, eq_comm]
    have hh₁ : file₁.Holds p w ↔ p = page ∧ w = true := by
      simp [File.Holds, file₁, href₁, eq_comm]
    have hnot₀ : ¬ (s₁.ftable f₀).Holds p w := by simp [File.Holds, s₁, Shared.setPipe, htype₀]
    have hnot₁ : ¬ ((s₁.setFile f₀ file₀).ftable f₁).Holds p w := by simp [File.Holds, hold₁, htype₁]
    rw [card_holders_setFile hnot₁, card_holders_setFile hnot₀]
    change (holders s p w).card + _ + _ = _
    simp only [hh₀, hh₁]
    by_cases hp : p = page <;> cases w <;> simp [hp]
  have hpages : T.1 + 0 + 0 + {page} + s.freelist + sys.pipePages s + sys.kernelPages = sys.pool.val := h.pages
  rw [hs]
  constructor
  · rw [show sys.pipePages ((s₁.setFile f₀ file₀).setFile f₁ file₁) = sys.pipePages s₁ from rfl,
      pipePages_insert _ hin hnone, ← hpages, ← Multiset.singleton_add]
    change T.1 + 0 + 0 + (s.freelist : Multiset ℕ) + _ + _ = _
    abel
  · exact hfiles₂.settle href₁
  · have hE : (T + ofFiles {.ref f₀} + ofFiles {.ref f₁}).2.2.1 = T.2.2.1 := by simp [ofFiles]
    rw [hE]
    have hpipe (p : ℕ) : ((s₁.setFile f₀ file₀).setFile f₁ file₁).pipes p =
        if p = page then some ⟨true, true⟩ else s.pipes p := pipes_setPipe _ _ _
    constructor
    · intro p hp
      by_cases hpage : p = page
      · rwa [hpage]
      · apply hpipes.inPool
        rwa [hpipe, if_neg hpage] at hp
    · intro p pi hp
      rw [hpipe] at hp
      by_cases hpage : p = page
      · rw [if_pos hpage] at hp
        cases hp
        exact Or.inl rfl
      · rw [if_neg hpage] at hp
        exact hpipes.isOpen p pi hp
    · intro p w
      have hc := hpipes.count p w
      rw [hcard, hpipe]
      by_cases hpage : p = page
      · subst hpage
        rw [hnone] at hc
        simp only [Option.any_none, Bool.false_eq_true, ↓reduceIte] at hc
        have hopen : (⟨true, true⟩ : Pipe).isOpen w = true := by cases w <;> rfl
        simp only [↓reduceIte, Option.any_some, hopen]
        omega
      · simpa [hpage] using hc
  · have hslots : T.2.2.2 + 0 + 0 + 0 = Finset.univ.val := h.slots
    simpa [ofFiles] using hslots

def Local.takeRef (l : Local) (f : Fin nFile) : Local := { l with refs := f ::ₘ l.refs }

theorem tokens_takeRef : (l.takeRef f).tokens = l.tokens + ofFiles {.ref f} := by
  simp only [Local.tokens, Local.takeRef, ← Multiset.singleton_add, Multiset.map_add, Multiset.map_singleton,
    ofFiles_add]
  abel

@[simp] theorem dropFresh_takeFresh : (l.takeFresh f).dropFresh f = l := by
  simp only [Local.takeFresh, Local.dropFresh, Multiset.erase_cons_head]

@[simp] theorem dropRef_takeRef : (l.takeRef f).dropRef f = l := by
  simp only [Local.takeRef, Local.dropRef, Multiset.erase_cons_head]

theorem takeFresh_comm {f' : Fin nFile} : (l.takeFresh f).takeFresh f' = (l.takeFresh f').takeFresh f := by
  simp only [Local.takeFresh, Multiset.cons_swap]

theorem wp_closeFresh {Q : Unit → Local → Prop} (hfs : ∀ msg, ok (.fs msg)) (hQ : Q () l) :
    wp (ledger sys strict) ok (fileclose sys f (·.dropFresh f)) (l.takeFresh f) Q := by
  apply wp_fileclose (r := .fresh f) hfs
  · rw [dropFresh_takeFresh, tokens_takeFresh]
  · rwa [dropFresh_takeFresh]

theorem wp_closeRef {Q : Unit → Local → Prop} (hfs : ∀ msg, ok (.fs msg)) (hQ : Q () l) :
    wp (ledger sys strict) ok (fileclose sys f (·.dropRef f)) (l.takeRef f) Q := by
  apply wp_fileclose (r := .ref f) hfs
  · rw [dropRef_takeRef, tokens_takeRef]
  · rwa [dropRef_takeRef]

theorem wp_initPipe {f₀ f₁ : Fin nFile} {page : ℕ} {Q : Unit → Local → Prop}
    (hQ : Q () ((l.takeRef f₁).takeRef f₀)) :
    wp (ledger sys strict) ok (.modify (initPipe f₀ f₁ page))
      (((l.takeFresh f₀).takeFresh f₁).takePage page) Q := by
  apply wp_modify
  intro s rest hs
  have hlocal : (initPipe f₀ f₁ page (s, ((l.takeFresh f₀).takeFresh f₁).takePage page)).2 =
      (l.takeRef f₁).takeRef f₀ := by
    simp only [initPipe, Local.takePage, Local.takeFresh, Local.takeRef, Local.dropFresh, Local.dropPage,
      Multiset.erase_cons_head]
    rw [Multiset.cons_swap, Multiset.erase_cons_head, Multiset.erase_cons_head]
  rw [hlocal]
  refine ⟨?_, hQ⟩
  apply KInv.exchange hs
  · rfl
  · intro T hb
    have hold : (ledger sys strict).tok (((l.takeFresh f₀).takeFresh f₁).takePage page) + T =
        l.tokens + T + ofFiles {.fresh f₀} + ofFiles {.fresh f₁} + ofPages {page} := by
      simp only [ledger, tokens_takePage, tokens_takeFresh]
      abel
    have hnew : (ledger sys strict).tok ((l.takeRef f₁).takeRef f₀) + T =
        l.tokens + T + ofFiles {.ref f₀} + ofFiles {.ref f₁} := by
      simp only [ledger, tokens_takeRef]
      abel
    rw [hold] at hb
    rw [hnew]
    exact hb.initPipe

theorem wp_pipealloc {Q : Option (Fin nFile × Fin nFile) → Local → Prop} (hfs : ∀ msg, ok (.fs msg))
    (hnone : Q none l) (hsome : ∀ f₀ f₁, Q (some (f₀, f₁)) ((l.takeRef f₁).takeRef f₀)) :
    wp (ledger sys strict) ok (pipealloc sys) l Q := by
  rw [pipealloc, wp_bind]
  apply wp_filealloc hnone
  intro f₀
  simp only [wp_bind]
  apply wp_filealloc
  · simp only [wp_bind]
    exact wp_closeFresh hfs hnone
  intro f₁
  simp only [wp_bind]
  apply wp_kalloc
  · simp only [wp_bind]
    rw [takeFresh_comm]
    apply wp_closeFresh hfs
    exact wp_closeFresh hfs hnone
  · intro page _
    simp only [wp_bind]
    exact wp_initPipe (hsome f₀ f₁)

end Xv6.Kernel
