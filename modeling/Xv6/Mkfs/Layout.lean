import Xv6.Mkfs.Append

namespace Xv6.Mkfs

open Lib Fs Hoare
open Function (update update_of_ne update_self update_eq_self)

variable {s t : Mk} {i : ℕ} {files : List File} {image : ℕ → Block}

def Whole (s : Mk) : Prop := Made s (disk sb s.image) (sized (disk sb s.image))

theorem fileBlock_lt {c : ℕ → Block} {D : ℕ → Dinode} {bn : ℕ} (h : fileBlock sb c D i bn ≠ none) : bn < maxFile := by
  by_contra hle
  apply h
  have hnone : dataSlot bn = none := by
    unfold maxFile at hle
    unfold dataSlot
    rw [dif_neg (by omega), dif_neg (by omega)]
  rw [fileBlock, hnone, Option.bind_none]

theorem Whole.size_le (h : Whole s) (hi : 0 < i) (hi' : i < s.freeinode) (hn : i < sb.ninodes) :
    (disk sb s.image i).size ≤ maxFile * bSize := by
  by_contra hlt
  have hsome := (h.blocks i maxFile hi hi' hn).mpr (Nat.lt_of_not_le hlt)
  exact absurd (fileBlock_lt hsome) (Nat.lt_irrefl _)

theorem iblock_lt_bmapstart (h : i < ninodeblocks * ipb) : sb.iblock i < sb.bmapstart := by
  have hb : sb.bmapstart = ninodeblocks + sb.inodestart := by decide
  have hlt : i / ipb < ninodeblocks := Nat.div_lt_of_lt_mul (by rw [Nat.mul_comm]; exact h)
  unfold Superblock.iblock
  omega

theorem iblock_lt_length (h : Whole s) (hi : i < ninodeblocks * ipb) : sb.iblock i < s.length := by
  rw [h.length]
  exact (iblock_lt_bmapstart hi).trans (by decide)

theorem ninodes_lt (hn : i < sb.ninodes) : i < ninodeblocks * ipb := hn.trans (by decide)

theorem wp_rinode {Q : Dinode → Mk → Prop} {E : String → Prop} (hn : i < sb.ninodes) (hb : sb.iblock i < s.length)
    (hQ : Q (disk sb s.image i) s) : wp (rinode i) s Q E := by
  unfold rinode
  rw [wp_bind]
  apply wp_rsect hb
  rw [wp_pure]
  unfold disk at hQ
  rw [if_pos hn] at hQ
  exact hQ

theorem wp_winode {d : Dinode} {Q : Unit → Mk → Prop} {E : String → Prop} (hb : sb.iblock i < s.length)
    (hQ : Q () (s.put (sb.iblock i) (writeDinode (s.image (sb.iblock i)) (i % ipb) d))) : wp (winode i d) s Q E := by
  unfold winode
  rw [wp_bind]
  apply wp_rsect hb
  exact wp_wsect hb hQ

structure Grown (s t : Mk) (i n : ℕ) : Prop where
  whole : Whole t
  inode : t.freeinode = s.freeinode
  block : t.freeblock ≤ s.freeblock + atMost (disk sb s.image i).size n
  size : (disk sb t.image i).size = (disk sb s.image i).size + n
  others : ∀ j ≠ i, disk sb t.image j = disk sb s.image j

theorem iappend_spec {p : List UInt8} (h : Whole s) (hi : 0 < i) (hi' : i < s.freeinode) (hn : i < sb.ninodes) :
    wp (iappend i p) s (fun _ t => Grown s t i p.length) (fun _ => Stopped s (disk sb s.image i).size p.length) := by
  have hlen := iblock_lt_length h (ninodes_lt hn)
  have hheld : held s i (disk sb s.image i) (disk sb s.image i).size = disk sb s.image := update_eq_self _ _
  have hmade : Made s (held s i (disk sb s.image i) (disk sb s.image i).size)
      (sized (held s i (disk sb s.image i) (disk sb s.image i).size)) := by
    rw [hheld]
    exact h
  unfold iappend
  rw [wp_bind]
  apply wp_rinode hn hlen
  rw [wp_bind]
  refine wp_mono (appendLoop_spec hmade hi hi' hn (disk_fits _ _) (h.size_le hi hi' hn) (Nat.le_refl _)) ?_ (fun _ he => he)
  rintro ⟨d, off⟩ t ⟨hends, hmax, htype, hfits, hmade', hsteady⟩
  dsimp only at hends hmax htype hfits hmade' ⊢
  have hoff : off < 2 ^ 32 := hmax.trans_lt (by decide)
  have hfits' : ({ d with size := off } : Dinode).Fits :=
    ⟨hfits.type, hfits.major, hfits.minor, hfits.nlink, hoff, hfits.addrs⟩
  obtain ⟨hput, hdisk⟩ := hmade'.put_inode hn hfits' rfl
  apply wp_winode (by rw [hmade'.length]; rw [h.length] at hlen; exact hlen)
  refine ⟨?_, hsteady.inode, hsteady.block, ?_, ?_⟩
  · unfold Whole
    rw [hdisk]
    exact hput
  · rw [hdisk, held_self]
    exact hends
  · intro j hj
    rw [hdisk, held_of_ne hj, hsteady.disk]

structure Allocated (s t : Mk) (n : ℕ) : Prop where
  inum : n = s.freeinode
  whole : Whole t
  inode : t.freeinode = s.freeinode + 1
  block : t.freeblock = s.freeblock
  others : ∀ j ≠ s.freeinode, disk sb t.image j = disk sb s.image j
  empty : (disk sb t.image s.freeinode).size = 0

theorem disk_past {n : ℕ} {d : Dinode} (hn : sb.ninodes ≤ n) :
    disk sb (update image (sb.iblock n) (writeDinode (image (sb.iblock n)) (n % ipb) d)) = disk sb image := by
  funext j
  unfold disk
  split_ifs with hj
  · by_cases hb : sb.iblock j = sb.iblock n
    · rw [hb, update_self, readDinode_writeDinode_of_ne]
      have hi : ipb = 16 := by decide
      simp only [Superblock.iblock, hi] at hb ⊢
      omega
    · rw [update_of_ne hb]
  · rfl

theorem ialloc_made {d : Dinode} (h : Whole s) (hpos : 0 < s.freeinode) (ht : d.type ≠ 0)
    (haddrs : ∀ c k, Fs.slot c d k = 0) (hsize : d.size = 0) :
    Made { s with freeinode := s.freeinode + 1 } (update (disk sb s.image) s.freeinode d)
      (sized (update (disk sb s.image) s.freeinode d)) := by
  have hold : ∀ k, refs sb (marked s) (disk sb s.image) (s.freeinode, k) = none := by
    intro k
    rw [refs, if_neg]
    rintro ⟨-, hty, -⟩
    exact hty (h.unused _ (Or.inr (Nat.le_refl _)))
  have hrefs := refs_update_of_none hold (d := d) (fun _ k => haddrs _ k)
  refine ⟨h.length, ⟨?_, h.owns.reserved⟩, h.low, h.high, h.zero, ?_, ?_, ?_⟩
  · change Owned _ _ (refs sb (marked s) _) ∅
    rw [hrefs]
    exact h.owns.owned
  · intro i hi hi' hn'
    by_cases he : i = s.freeinode
    · rw [he, update_self]
      exact ht
    · rw [update_of_ne he]
      change i < s.freeinode + 1 at hi'
      exact h.used i hi (by omega) hn'
  · intro i hi
    change i = 0 ∨ s.freeinode + 1 ≤ i at hi
    rw [update_of_ne (by omega)]
    exact h.unused i (by omega)
  · intro i bn hi hi' hn'
    change fileBlock sb (marked s) _ _ _ ≠ none ↔ _
    change i < s.freeinode + 1 at hi'
    unfold fileBlock
    rw [hrefs]
    unfold sized
    by_cases he : i = s.freeinode
    · rw [he, update_self, hsize]
      constructor
      · intro hne
        cases hslot : dataSlot bn with
        | none => exact absurd (by rw [hslot]; rfl) hne
        | some k => exact absurd (by rw [hslot]; exact hold k) hne
      · intro hlt
        omega
    · rw [update_of_ne he]
      exact h.blocks i bn hi (by omega) hn'

theorem ialloc_spec {type : ℕ} {E : String → Prop} (h : Whole s) (hpos : 0 < s.freeinode) (hlt : s.freeinode < ninodeblocks * ipb)
    (ht : type ≠ 0) (ht' : type < 2 ^ 16) : wp (ialloc type) s (fun n t => Allocated s t n) E := by
  unfold ialloc
  rw [wp_bind, wp_get, wp_bind, wp_set, wp_bind]
  have hlen := iblock_lt_length h hlt
  apply wp_winode (s := { s with freeinode := s.freeinode + 1 }) hlen
  rw [wp_pure]
  have hfits : ({ Dinode.zero with type := type, nlink := 1 } : Dinode).Fits :=
    ⟨ht', Nat.two_pow_pos 16, Nat.two_pow_pos 16, Nat.one_lt_two_pow (by decide), Nat.two_pow_pos 32, fun _ => Nat.two_pow_pos 32⟩
  by_cases hn : s.freeinode < sb.ninodes
  · have hmade := ialloc_made (d := { Dinode.zero with type := type, nlink := 1 }) h hpos ht (fun c k => by cases k <;> rfl) rfl
    obtain ⟨hput, hdisk⟩ := hmade.put_inode hn hfits rfl
    refine ⟨rfl, ?_, rfl, rfl, ?_, ?_⟩
    · unfold Whole
      rw [hdisk]
      exact hput
    · intro j hj
      rw [hdisk, update_of_ne hj]
    · rw [hdisk, update_self]
      rfl
  -- the inode is in the last inode block, behind those of the superblock's count
  · have hdisk : disk sb (update s.image (sb.iblock s.freeinode) (writeDinode (s.image (sb.iblock s.freeinode))
        (s.freeinode % ipb) { Dinode.zero with type := type, nlink := 1 })) = disk sb s.image := disk_past (Nat.le_of_not_lt hn)
    have hmade : Made { s with freeinode := s.freeinode + 1 } (disk sb s.image) (sized (disk sb s.image)) := by
      refine ⟨h.length, h.owns, h.low, h.high, h.zero, ?_, ?_, ?_⟩
      · intro i hi _ hn'
        exact h.used i hi (by omega) hn'
      · intro i hi
        change i = 0 ∨ s.freeinode + 1 ≤ i at hi
        exact h.unused i (by omega)
      · intro i bn hi _ hn'
        exact h.blocks i bn hi (by omega) hn'
    refine ⟨rfl, ?_, rfl, rfl, ?_, ?_⟩
    · unfold Whole
      change Made _ (disk sb (update _ _ _)) (sized (disk sb (update _ _ _)))
      rw [hdisk]
      exact hmade.put_low (iblock_lt_bmapstart hlt)
    · intro j _
      change disk sb (update _ _ _) j = _
      rw [hdisk]
    · change (disk sb (update _ _ _) _).size = _
      rw [hdisk, disk, if_neg hn]
      rfl

/-! ### The whole of mkfs -/

theorem dirent_length (n : ℕ) (name : List UInt8) : (dirent n name).length = direntSize := by
  unfold dirent
  rw [List.length_append, List.length_map, List.length_range, length_strncpy]
  rfl

theorem atMost_entry (k : ℕ) : atMost (direntSize * k) direntSize = 2 := by
  unfold atMost
  rw [touched_step (by decide), List.length_cons]
  have hmin : min direntSize (bSize - direntSize * k % bSize) = direntSize := by
    simp only [direntSize, bSize]
    omega
  rw [hmin, Nat.sub_self, touched_zero]
  rfl

def File.Empty (f : File) : Prop := slash ∉ shortname f.path ∧ f.reads = some []

structure Filled (s : Mk) (k : ℕ) (quiet : Prop) : Prop where
  whole : Whole s
  inode : s.freeinode = k + 2
  size : (disk sb s.image rootIno).size = direntSize * (k + 2)
  block : quiet → s.freeblock ≤ nmeta + 2 * (k + 2)

theorem root_lt : rootIno < sb.ninodes := by decide

theorem not_stopped {k : ℕ} (hb : s.freeblock ≤ nmeta + 2 * k) (hk : k ≤ ninodeblocks * ipb) :
    ¬ Stopped s (direntSize * k) direntSize := by
  have h1 : ninodeblocks * ipb = 208 := by decide
  have h2 : nmeta = 46 := by decide
  have h3 : fsSize = 1000 := by decide
  have h4 : maxFile * bSize = 274432 := by decide
  unfold Stopped
  rw [atMost_entry, h3, h4]
  simp only [direntSize]
  omega

theorem appendAll_spec {n : ℕ} {reads : List (List UInt8)} (h : Whole s) (hn0 : rootIno < n) (hn : n < s.freeinode)
    (hn' : n < sb.ninodes) :
    wp (reads.forM (iappend n)) s
      (fun _ t => Whole t ∧ t.freeinode = s.freeinode ∧ (disk sb t.image rootIno).size = (disk sb s.image rootIno).size)
      (fun _ => True) := by
  apply wp_forM (I := fun _ t => Whole t ∧ t.freeinode = s.freeinode ∧
    (disk sb t.image rootIno).size = (disk sb s.image rootIno).size) ⟨h, rfl, rfl⟩
  rintro done p rest - t ⟨hw, hinode, hsize⟩
  refine wp_mono (iappend_spec hw (by omega) (by omega) hn') ?_ (fun _ _ => trivial)
  intro _ u hu
  refine ⟨hu.whole, hu.inode.trans hinode, ?_⟩
  rw [hu.others _ hn0.ne]
  exact hsize

theorem addFile_spec {f : File} {k : ℕ} {quiet : Prop} (h : Filled s k quiet) (hk : k + 2 < ninodeblocks * ipb)
    (hf : k + 2 < sb.ninodes ∨ f.Empty) :
    wp (addFile f) s (fun _ t => Filled t (k + 1) (quiet ∧ f.Empty)) (fun _ => ¬ (quiet ∧ f.Empty)) := by
  have hroot : 0 < rootIno := by decide
  unfold addFile
  by_cases hslash : slash ∈ shortname f.path
  · rw [if_pos hslash, wp_throw]
    rintro ⟨-, hempty⟩
    exact hempty.1 hslash
  rw [if_neg hslash]
  cases hreads : f.reads with
  | none =>
    rw [wp_throw]
    rintro ⟨-, hempty⟩
    rw [hempty.2] at hreads
    exact absurd hreads (Option.some_ne_none _)
  | some reads =>
    rw [wp_bind]
    have hinode := h.inode
    refine wp_mono (ialloc_spec (E := fun _ => False) h.whole (by omega) (by rw [hinode]; exact hk) (by decide) (by decide)) ?_
      (fun _ he => he.elim)
    intro n t ht
    have hne : rootIno ≠ s.freeinode := by
      rw [hinode]
      simp only [rootIno]
      omega
    have hsize : (disk sb t.image rootIno).size = direntSize * (k + 2) := by
      rw [ht.others _ hne]
      exact h.size
    have htinode := ht.inode
    rw [wp_bind]
    refine wp_mono (iappend_spec ht.whole hroot (by simp only [rootIno]; omega) root_lt) ?_ ?_
    · intro _ u hu
      have husize := hu.size
      have hublock := hu.block
      have huinode := hu.inode
      have htblock := ht.block
      rw [hsize, dirent_length] at husize hublock
      rw [atMost_entry] at hublock
      have hnew : (disk sb u.image rootIno).size = direntSize * (k + 1 + 2) := by
        rw [husize]
        ring
      by_cases hnil : reads = []
      · subst hnil
        change wp (pure ()) u _ _
        rw [wp_pure]
        refine ⟨hu.whole, by omega, hnew, ?_⟩
        rintro ⟨hq, -⟩
        have := h.block hq
        omega
      · have hnot : ¬ f.Empty := by
          intro hempty
          rw [hempty.2] at hreads
          exact hnil (Option.some.inj hreads).symm
        have hn : n = k + 2 := ht.inum.trans hinode
        refine wp_mono (appendAll_spec hu.whole (by simp only [rootIno]; omega) (by omega)
          (by rw [hn]; exact hf.resolve_right hnot)) ?_ ?_
        · rintro _ v ⟨hv, hvinode, hvsize⟩
          refine ⟨hv, by omega, hvsize.trans hnew, ?_⟩
          rintro ⟨-, hempty⟩
          exact absurd hempty hnot
        · rintro _ - ⟨-, hempty⟩
          exact hnot hempty
    · rintro _ hstop ⟨hq, -⟩
      rw [hsize, dirent_length] at hstop
      have hb := h.block hq
      rw [← ht.block] at hb
      exact not_stopped hb hk.le hstop

theorem zeroes_spec {n : ℕ} {E : String → Prop} :
    wp ((List.range n).forM (fun i => wsect i (fun _ => 0))) (start image)
      (fun _ t => t.length = n ∧ t.freeinode = 1 ∧ t.freeblock = nmeta ∧ ∀ b < n, t.image b = fun _ => 0) E := by
  suffices hloop : wp ((List.range n).forM (fun i => wsect i (fun _ => 0))) (start image)
      (fun _ t => t.length = (List.range n).length ∧ t.freeinode = 1 ∧ t.freeblock = nmeta ∧
        ∀ b < (List.range n).length, t.image b = fun _ => 0) E by
    rw [List.length_range] at hloop
    exact hloop
  apply wp_forM (I := fun (done : List ℕ) (t : Mk) => t.length = done.length ∧ t.freeinode = 1 ∧ t.freeblock = nmeta ∧
    ∀ b < done.length, t.image b = fun _ => 0) ⟨rfl, rfl, rfl, fun b hb => absurd hb (Nat.not_lt_zero _)⟩
  rintro done x rest hl t ⟨hlen, hinode, hblock, hzero⟩
  have hx : x = done.length := by
    have hget := congrArg (fun l => l[done.length]?) hl
    rw [List.getElem?_append_right (Nat.le_refl _), Nat.sub_self, List.getElem?_cons_zero, List.getElem?_eq_some_iff] at hget
    obtain ⟨_, hget⟩ := hget
    rw [List.getElem_range] at hget
    exact hget.symm
  unfold wsect
  rw [wp_modify]
  refine ⟨?_, hinode, hblock, ?_⟩
  · rw [List.length_append, List.length_singleton]
    dsimp only
    omega
  · intro b hb
    rw [List.length_append, List.length_singleton] at hb
    dsimp only
    by_cases he : b = x
    · rw [he, update_self]
    · rw [update_of_ne he]
      exact hzero b (by omega)

theorem disk_zeroed (h : ∀ b < fsSize, image b = fun _ => 0) (i : ℕ) : (disk sb image i).type = 0 := by
  unfold disk
  split_ifs with hi
  · rw [h _ ((Superblock.iblock_lt hi).trans (by decide))]
    exact Bytes.le_zero _ _
  · rfl

theorem zeroed_whole (hlen : s.length = fsSize) (hinode : s.freeinode = 1) (hblock : s.freeblock = nmeta)
    (h : ∀ b < fsSize, s.image b = fun _ => 0) : Whole s := by
  have hhigh : s.freeblock ≤ fsSize := by
    rw [hblock]
    decide
  have hnone : ∀ x, refs sb (marked s) (disk sb s.image) x = none := by
    intro x
    rw [refs, if_neg]
    rintro ⟨-, ht, -⟩
    exact ht (disk_zeroed h _)
  refine ⟨hlen, ⟨⟨?_, ?_, ?_, ?_⟩, ?_⟩, hblock.ge, hhigh, fun b _ hb => h b hb, ?_, fun i _ => disk_zeroed h i, ?_⟩
  · intro x b hx
    exact absurd hx (by rw [hnone]; exact (Option.some_ne_none _).symm)
  · intro x y b hx
    exact absurd hx (by rw [hnone]; exact (Option.some_ne_none _).symm)
  · intro b hb
    rw [used_marked hhigh hb.2, hblock]
    constructor
    · intro hlt
      exact absurd hb.1 (Nat.not_le_of_lt hlt)
    · rintro (hp | ⟨x, hx⟩)
      · exact absurd hp (Set.notMem_empty _)
      · exact absurd hx (by rw [hnone]; exact (Option.some_ne_none _).symm)
  · intro b hb
    exact absurd hb (Set.notMem_empty _)
  · intro b hb
    rw [used_marked hhigh (hb.trans (by decide)), hblock]
    exact hb
  · intro i hi hi'
    omega
  · intro i bn hi hi'
    omega

theorem Whole.put_superblock (h : Whole s) : Whole (s.put 1 superblock) := by
  have hdisk : disk sb (s.put 1 superblock).image = disk sb s.image := by
    apply disk_congr
    intro i _
    have hle : 32 ≤ sb.iblock i := Nat.le_add_left _ _
    have hne : sb.iblock i ≠ 1 := fun h1 => absurd (h1 ▸ hle) (by decide)
    exact put_of_ne hne
  unfold Whole
  rw [hdisk]
  exact h.put_low (by decide)

structure Formatted (k : ℕ) (t : Mk) : Prop where
  length : t.length = fsSize
  inode : t.freeinode = k + 2
  owns : Owns sb t.image (disk sb t.image) ∅
  root : (disk sb t.image rootIno).size = (direntSize * (k + 2) / bSize + 1) * bSize
  used : ∀ i, 0 < i → i < t.freeinode → i < sb.ninodes → (disk sb t.image i).type ≠ 0
  unused : ∀ i, i = 0 ∨ t.freeinode ≤ i → (disk sb t.image i).type = 0
  blocks : ∀ i bn, 0 < i → i < t.freeinode → i < sb.ninodes → (fileBlock sb t.image (disk sb t.image) i bn ≠ none ↔
    bn * bSize < if i = rootIno then direntSize * (k + 2) else (disk sb t.image i).size)

theorem finish_spec {k : ℕ} {quiet : Prop} {E : String → Prop} (h : Filled s k quiet) (hk : k ≤ ninodeblocks * ipb) :
    wp (do
      let din ← rinode rootIno
      winode rootIno { din with size := (din.size / bSize + 1) * bSize }
      balloc (← get).freeblock : MkM Unit) s (fun _ => Formatted k) E := by
  have hlen := iblock_lt_length h.whole (ninodes_lt root_lt)
  have hmax : ninodeblocks * ipb = 208 := by decide
  rw [wp_bind]
  apply wp_rinode root_lt hlen
  rw [wp_bind]
  apply wp_winode hlen
  rw [wp_bind, wp_get]
  generalize hd : ({ disk sb s.image rootIno with size := ((disk sb s.image rootIno).size / bSize + 1) * bSize } : Dinode) = d
  have hsize : d.size = (direntSize * (k + 2) / bSize + 1) * bSize := by
    rw [← hd, ← h.size]
  have hfits : d.Fits := by
    have hold : (disk sb s.image rootIno).Fits := disk_fits _ _
    rw [← hd]
    refine ⟨hold.type, hold.major, hold.minor, hold.nlink, ?_, hold.addrs⟩
    dsimp only
    rw [h.size]
    simp only [direntSize, bSize]
    omega
  have hsame : ∀ j, (update (disk sb s.image) rootIno d j).type = (disk sb s.image j).type ∧
      (update (disk sb s.image) rootIno d j).addrs = (disk sb s.image j).addrs := by
    intro j
    by_cases hj : j = rootIno
    · rw [hj, update_self, ← hd]
      exact ⟨rfl, rfl⟩
    · rw [update_of_ne hj]
      exact ⟨rfl, rfl⟩
  have hmade := h.whole.refit (refs_congr_inodes hsame) (fun j => (hsame j).1) (fun _ _ => Iff.rfl)
  obtain ⟨hput, hdisk⟩ := hmade.put_inode root_lt hfits rfl
  generalize hu : s.put (sb.iblock rootIno) (writeDinode (s.image (sb.iblock rootIno)) (rootIno % ipb) d) = u at hput hdisk ⊢
  have hinode : u.freeinode = k + 2 := by
    rw [← hu]
    exact h.inode
  have hbits : u.freeblock < bSize * 8 := hput.high.trans_lt (by decide)
  unfold balloc
  rw [if_pos hbits]
  apply wp_wsect
  · rw [hput.length]
    decide
  -- the image is now the one that `marked` has looked ahead to
  have himage : (u.put sb.bmapstart (bits u.freeblock)).image = marked u := rfl
  refine ⟨hput.length, hinode, ?_, ?_, ?_, ?_, ?_⟩
  · rw [himage, disk_marked, hdisk]
    exact hput.owns
  · rw [himage, disk_marked, hdisk, update_self]
    exact hsize
  · rw [himage, disk_marked, hdisk]
    exact hput.used
  · rw [himage, disk_marked, hdisk]
    exact hput.unused
  · intro i bn hi hi' hn
    rw [himage, disk_marked, hdisk, hput.blocks i bn hi hi' hn]
    unfold sized
    split_ifs with hroot
    · rw [hroot, h.size]
    · rw [update_of_ne hroot]

theorem Filled.mono {k : ℕ} {quiet quiet' : Prop} (h : Filled s k quiet) (hq : quiet' → quiet) : Filled s k quiet' :=
  ⟨h.whole, h.inode, h.size, fun hq' => h.block (hq hq')⟩

theorem mkfs_spec (hroom : files.length + 2 < ninodeblocks * ipb)
    (hfiles : files.length + 2 ≤ sb.ninodes ∨ ∀ f ∈ files, f.Empty) :
    wp (mkfs files) (start image) (fun _ => Formatted files.length) (fun _ => ¬ ∀ f ∈ files, f.Empty) := by
  unfold mkfs
  rw [wp_bind]
  -- with a variable for the number of sectors the loop is not evaluated
  generalize hm : fsSize = m
  refine wp_mono (zeroes_spec (E := fun _ => False)) ?_ (fun _ he => he.elim)
  subst hm
  rintro _ s ⟨hlen, hinode, hblock, hzero⟩
  have hwhole := (zeroed_whole hlen hinode hblock hzero).put_superblock
  rw [wp_bind]
  apply wp_wsect (by rw [hlen]; decide)
  have hinode' : (s.put 1 superblock).freeinode = rootIno := hinode
  have hblock' : (s.put 1 superblock).freeblock = nmeta := hblock
  generalize s.put 1 superblock = s at hwhole hinode' hblock' ⊢
  rw [wp_bind]
  refine wp_mono (ialloc_spec (E := fun _ => False) hwhole (by rw [hinode']; decide) (by rw [hinode']; decide)
    (by decide) (by decide)) ?_ (fun _ he => he.elim)
  intro n t ht
  have hn : n = rootIno := ht.inum.trans hinode'
  have htblock : t.freeblock ≤ nmeta + 2 * 0 := (ht.block.trans hblock').le
  have htsize : (disk sb t.image rootIno).size = direntSize * 0 := by
    rw [← hinode']
    exact ht.empty
  have htinode : t.freeinode = rootIno + 1 := by
    rw [ht.inode, hinode']
  rw [if_neg (not_not.mpr hn), wp_bind]
  refine wp_mono (iappend_spec ht.whole (by decide) (by rw [htinode]; exact Nat.lt_succ_self _) root_lt) ?_ ?_
  · intro _ u hu
    have hublock := hu.block
    have husize := hu.size
    rw [htsize, dirent_length] at hublock husize
    rw [atMost_entry] at hublock
    have huinode : u.freeinode = rootIno + 1 := hu.inode.trans htinode
    have husize' : (disk sb u.image rootIno).size = direntSize * 1 := husize
    rw [wp_bind]
    refine wp_mono (iappend_spec hu.whole (by decide) (by rw [huinode]; exact Nat.lt_succ_self _) root_lt) ?_ ?_
    · intro _ v hv
      have hvblock := hv.block
      have hvsize := hv.size
      rw [husize', dirent_length] at hvblock hvsize
      rw [atMost_entry] at hvblock
      have hfilled : Filled v ([] : List File).length (∀ f ∈ ([] : List File), f.Empty) :=
        ⟨hv.whole, hv.inode.trans huinode, hvsize, fun _ => by rw [List.length_nil]; omega⟩
      rw [wp_bind]
      refine wp_mono (wp_forM (I := fun done t => Filled t done.length (∀ f ∈ done, f.Empty)) hfilled ?_) ?_
        (fun _ he => he)
      · intro done f rest hl w hw
        have hle : done.length < files.length := by
          rw [hl, List.length_append, List.length_cons]
          omega
        have hf : f ∈ files := by
          rw [hl]
          exact List.mem_append_right _ List.mem_cons_self
        refine wp_mono (addFile_spec hw (by omega) ?_) ?_ ?_
        · rcases hfiles with hfew | hall
          · left
            omega
          · exact Or.inr (hall f hf)
        · intro _ w' hw'
          rw [List.length_append, List.length_singleton]
          apply hw'.mono
          intro hq
          exact ⟨fun g hg => hq g (List.mem_append_left _ hg), hq f (List.mem_append_right _ List.mem_cons_self)⟩
        · intro _ he hall
          apply he
          refine ⟨fun g hg => hall g ?_, hall f hf⟩
          rw [hl]
          exact List.mem_append_left _ hg
      · intro _ w hw
        exact finish_spec hw (by omega)
    · intro _ hstop
      rw [husize', dirent_length] at hstop
      exact absurd hstop (not_stopped (by omega) (by decide))
  · intro _ hstop
    rw [htsize, dirent_length] at hstop
    exact absurd hstop (not_stopped htblock (by decide))

theorem Formatted.of_run (hlen : files.length ≤ 198) (hrun : mkfs files (start image) = .ok ((), t)) :
    Formatted files.length t := by
  have hroom : files.length + 2 < ninodeblocks * ipb := by
    have : ninodeblocks * ipb = 208 := by decide
    omega
  have hfew : files.length + 2 ≤ sb.ninodes := by
    have : sb.ninodes = 200 := rfl
    omega
  exact wp_ok (Q := fun _ => Formatted files.length) (mkfs_spec hroom (Or.inl hfew)) hrun

theorem Formatted.allocated {k : ℕ} (h : Formatted k t) (ht : (disk sb t.image i).type ≠ 0) : 0 < i ∧ i < t.freeinode := by
  have hne : ¬ (i = 0 ∨ t.freeinode ≤ i) := fun hi => ht (h.unused i hi)
  omega

theorem Formatted.full {k : ℕ} (h : Formatted k t) (hmod : (k + 2) % (bSize / direntSize) ≠ 0) :
    Full sb t.image (disk sb t.image) := by
  have hblocks : ∀ i < sb.ninodes, (disk sb t.image i).type ≠ 0 →
      ∀ bn, bn * bSize < (disk sb t.image i).size → fileBlock sb t.image (disk sb t.image) i bn ≠ none := by
    intro i hi ht bn hbn
    obtain ⟨hpos, hlt⟩ := h.allocated ht
    rw [h.blocks i bn hpos hlt hi]
    split_ifs with hroot
    · rw [hroot, h.root] at hbn
      simp only [bSize, direntSize] at hbn hmod ⊢
      omega
    · exact hbn
  intro i hi ht
  refine ⟨?_, hblocks i hi ht⟩
  by_contra hlt
  exact absurd (fileBlock_lt (hblocks i hi ht maxFile (Nat.lt_of_not_le hlt))) (Nat.lt_irrefl _)

def emptyFiles (k : ℕ) : List File := List.replicate k ⟨[97], some []⟩

theorem emptyFiles_empty (k : ℕ) : ∀ f ∈ emptyFiles k, f.Empty := by
  intro f hf
  rw [List.eq_of_mem_replicate hf]
  exact ⟨by decide, rfl⟩

theorem emptyFiles_run {k : ℕ} (hk : k + 2 < ninodeblocks * ipb) :
    ∃ t, mkfs (emptyFiles k) (start fun _ _ => 0) = .ok ((), t) ∧ Formatted k t := by
  have hlen : (emptyFiles k).length = k := List.length_replicate
  have hspec : wp (mkfs (emptyFiles k)) (start fun _ _ => 0) (fun _ => Formatted (emptyFiles k).length)
      (fun _ => ¬ ∀ f ∈ emptyFiles k, f.Empty) := mkfs_spec (by rw [hlen]; exact hk) (Or.inr (emptyFiles_empty k))
  rw [hlen] at hspec
  obtain ⟨⟨⟩, t, hrun, ht⟩ := exists_ok (wp_mono hspec (fun _ _ h => h) (fun _ he => he (emptyFiles_empty k)))
  exact ⟨t, hrun, ht⟩

end Xv6.Mkfs
