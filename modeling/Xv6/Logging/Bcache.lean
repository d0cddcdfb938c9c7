import Mathlib.Data.Fin.Basic
import Mathlib.Data.List.FinRange
import Xv6.Params

set_option linter.unusedSectionVars false

namespace Xv6.Logging

open Function (update update_of_ne update_self update_eq_self update_idem)

structure Buf (P : Type) where
  valid : Bool
  dev : ℕ
  blockno : ℕ
  refcnt : ℕ
  lock : Option P
  data : Block

structure Bcache (P : Type) where
  disk : ℕ → Block
  buf : Fin nBuf → Buf P
  lru : List (Fin nBuf)

variable {P : Type}

def binit (disk : ℕ → Block) : Bcache P :=
  ⟨disk, fun _ => ⟨false, 0, 0, 0, none, fun _ => 0⟩, (List.finRange nBuf).reverse⟩

namespace Bcache

def set (c : Bcache P) (i : Fin nBuf) (b : Buf P) : Bcache P :=
  { c with buf := update c.buf i b }

def Caches (c : Bcache P) (i : Fin nBuf) (blockno : ℕ) : Prop :=
  (c.buf i).dev = rootDev ∧ (c.buf i).blockno = blockno

instance (c : Bcache P) (i : Fin nBuf) (blockno : ℕ) : Decidable (c.Caches i blockno) :=
  inferInstanceAs (Decidable (_ ∧ _))

def bget (c : Bcache P) (blockno : ℕ) : Option (Bcache P × Fin nBuf) :=
  match c.lru.find? (fun i => c.Caches i blockno) with
  | some i => some (c.set i { c.buf i with refcnt := (c.buf i).refcnt + 1 }, i)
  | none =>
    match c.lru.reverse.find? (fun i => (c.buf i).refcnt = 0) with
    | some i =>
      some (c.set i { c.buf i with dev := rootDev, blockno := blockno, valid := false, refcnt := 1 }, i)
    | none => none

def acquire (c : Bcache P) (p : P) (i : Fin nBuf) : Option (Bcache P) :=
  if (c.buf i).lock.isSome then none
  else if (c.buf i).valid then some (c.set i { c.buf i with lock := some p })
  else some (c.set i { c.buf i with lock := some p, valid := true, data := c.disk (c.buf i).blockno })

def bread (c : Bcache P) (p : P) (blockno : ℕ) : Option (Bcache P × Fin nBuf) :=
  (c.bget blockno).bind (fun r => (r.1.acquire p r.2).map (fun c => (c, r.2)))

def setData (c : Bcache P) (i : Fin nBuf) (d : Block) : Bcache P :=
  c.set i { c.buf i with data := d }

def bwrite (c : Bcache P) (i : Fin nBuf) : Bcache P :=
  { c with disk := update c.disk (c.buf i).blockno (c.buf i).data }

def brelse (c : Bcache P) (i : Fin nBuf) : Bcache P :=
  let c := c.set i { c.buf i with lock := none, refcnt := (c.buf i).refcnt - 1 }
  if (c.buf i).refcnt = 0 then { c with lru := i :: c.lru.erase i } else c

def bpin (c : Bcache P) (i : Fin nBuf) : Bcache P :=
  c.set i { c.buf i with refcnt := (c.buf i).refcnt + 1 }

def bunpin (c : Bcache P) (i : Fin nBuf) : Bcache P :=
  c.set i { c.buf i with refcnt := (c.buf i).refcnt - 1 }

@[simp] theorem set_disk (c : Bcache P) (i : Fin nBuf) (b : Buf P) : (c.set i b).disk = c.disk := rfl
@[simp] theorem set_lru (c : Bcache P) (i : Fin nBuf) (b : Buf P) : (c.set i b).lru = c.lru := rfl
@[simp] theorem set_buf_self (c : Bcache P) (i : Fin nBuf) (b : Buf P) : (c.set i b).buf i = b := by
  simp [set]
theorem set_buf_of_ne {c : Bcache P} {i j : Fin nBuf} {b : Buf P} (h : j ≠ i) :
    (c.set i b).buf j = c.buf j := by simp [set, h]

end Bcache

/-- One buffer is consistent: `pins` are the logged blocks not yet installed and `L` is what a reader of each block is to see. -/
structure BufOk (pins : List ℕ) (L : ℕ → Block) (x : Buf P) (w : ℕ) (d : Bool) : Prop where
  refs : x.refcnt = (if x.lock.isSome then 1 else 0) + w +
    (if x.dev = rootDev ∧ x.blockno ∈ pins then 1 else 0)
  used : 0 < w → x.dev = rootDev
  held : d = true → x.lock.isSome
  locked : x.lock.isSome → x.valid = true ∧ x.dev = rootDev
  data : x.dev = rootDev → x.valid = true → d = false → x.data = L x.blockno

theorem BufOk.congr {pins pins' : List ℕ} {L L' : ℕ → Block} {x : Buf P} {w : ℕ} {d : Bool}
    (h : BufOk pins L x w d)
    (hx : x.dev = rootDev → (x.blockno ∈ pins' ↔ x.blockno ∈ pins) ∧ L' x.blockno = L x.blockno) :
    BufOk pins' L' x w d := by
  refine ⟨?_, h.used, h.held, h.locked, fun hd hv hdirty => by rw [(hx hd).2]; exact h.data hd hv hdirty⟩
  have hp : (x.dev = rootDev ∧ x.blockno ∈ pins') ↔ (x.dev = rootDev ∧ x.blockno ∈ pins) :=
    and_congr_right (fun hd => (hx hd).1)
  simpa only [hp] using h.refs

structure CacheInv (c : Bcache P) (pins : List ℕ) (wait : Fin nBuf → ℕ) (dirty : Fin nBuf → Bool)
    (L : ℕ → Block) : Prop where
  all : ∀ i, i ∈ c.lru
  uniq : ∀ i j b, c.Caches i b → c.Caches j b → i = j
  ok : ∀ i, BufOk pins L (c.buf i) (wait i) (dirty i)
  pinned : ∀ b ∈ pins, ∃ i, c.Caches i b ∧ (c.buf i).valid = true
  home : ∀ b, b ∉ pins → L b = c.disk b

namespace CacheInv

variable {c c' : Bcache P} {pins pins' : List ℕ} {wait : Fin nBuf → ℕ} {dirty : Fin nBuf → Bool}
  {L L' : ℕ → Block} {b : ℕ} {i : Fin nBuf} {p : P}

theorem binit (d : ℕ → Block) : CacheInv (binit d : Bcache P) [] (fun _ => 0) (fun _ => false) d where
  all i := by simp [Logging.binit]
  uniq i j b hi := by simp [Logging.binit, Bcache.Caches, rootDev] at hi
  ok i := ⟨by simp [Logging.binit], by simp, by simp, by simp [Logging.binit],
    by simp [Logging.binit, rootDev]⟩
  pinned := by simp
  home b _ := rfl

theorem rebind (h : CacheInv c pins wait dirty L) (hi : c.Caches i b) (pins' : List ℕ)
    (L' disk : ℕ → Block) {y : Buf P} {w : ℕ} {d : Bool} {lru : List (Fin nBuf)} (hy : y.dev = rootDev ∧ y.blockno = b)
    (hl : ∀ j, j ∈ lru) (hp : ∀ x ≠ b, (x ∈ pins' ↔ x ∈ pins)) (hL : ∀ x ≠ b, L' x = L x)
    (hd : ∀ x ≠ b, disk x = c.disk x) (ok : BufOk pins' L' y w d) (hv : b ∈ pins' → y.valid = true)
    (hb : b ∉ pins' → L' b = disk b) :
    CacheInv ⟨disk, update c.buf i y, lru⟩ pins' (update wait i w)
      (update dirty i d) L' := by
  have hne {j : Fin nBuf} (hj : j ≠ i) : ¬ c.Caches j b := fun hc => hj (h.uniq j i b hc hi)
  have hc (j : Fin nBuf) (x : ℕ) :
      Bcache.Caches ⟨disk, update c.buf i y, lru⟩ j x ↔ c.Caches j x := by
    by_cases hj : j = i
    · subst hj
      simp [Bcache.Caches, hy, hi.1, hi.2]
    · simp [Bcache.Caches, hj]
  refine ⟨hl, fun j k x hj hk => h.uniq j k x ((hc j x).mp hj) ((hc k x).mp hk), ?_, ?_, ?_⟩
  · intro j
    by_cases hj : j = i
    · subst hj
      simpa only [update_self] using ok
    · simp only [update_of_ne hj]
      refine (h.ok j).congr (fun hdev => ?_)
      have hx : (c.buf j).blockno ≠ b := fun he => hne hj ⟨hdev, he⟩
      exact ⟨hp _ hx, hL _ hx⟩
  · intro x hx
    by_cases hxb : x = b
    · subst hxb
      exact ⟨i, (hc i x).mpr hi, by simpa only [update_self] using hv hx⟩
    · obtain ⟨j, hj, hjv⟩ := h.pinned x ((hp x hxb).mp hx)
      have hji : j ≠ i := by
        rintro rfl
        exact hxb (hj.2.symm.trans hi.2)
      exact ⟨j, (hc j x).mpr hj, by simpa only [update_of_ne hji] using hjv⟩
  · intro x hx
    by_cases hxb : x = b
    · subst hxb
      exact hb hx
    · have hx' : x ∉ pins := fun hm => hx ((hp x hxb).mpr hm)
      exact (hL x hxb).trans ((h.home x hx').trans (hd x hxb).symm)

theorem retag (h : CacheInv c pins wait dirty L) (hi : c.Caches i b) {y : Buf P} {w : ℕ} {d : Bool}
    {lru : List (Fin nBuf)} (hy : y.dev = rootDev ∧ y.blockno = b) (hl : ∀ j, j ∈ lru)
    (hv : (c.buf i).valid = true → y.valid = true) (ok : BufOk pins L y w d) :
    CacheInv ⟨c.disk, update c.buf i y, lru⟩ pins (update wait i w)
      (update dirty i d) L := by
  refine h.rebind hi pins L c.disk hy hl (fun _ _ => Iff.rfl) (fun _ _ => rfl) (fun _ _ => rfl) ok ?_ (h.home b)
  intro hb
  obtain ⟨j, hj, hjv⟩ := h.pinned b hb
  rw [h.uniq j i b hj hi] at hjv
  exact hv hjv

theorem find_none (h : CacheInv c pins wait dirty L)
    (hf : c.lru.find? (fun i => c.Caches i b) = none) (i : Fin nBuf) : ¬ c.Caches i b := by
  simpa using List.find?_eq_none.mp hf i (h.all i)

theorem free_of_refcnt (h : CacheInv c pins wait dirty L) (hr : (c.buf i).refcnt = 0) :
    (c.buf i).lock = none ∧ wait i = 0 ∧ dirty i = false ∧ ∀ b ∈ pins, ¬ c.Caches i b := by
  have hrefs := (h.ok i).refs
  have hl : (c.buf i).lock.isSome = false := by
    by_contra hs
    simp only [Bool.not_eq_false] at hs
    simp only [hs, ↓reduceIte] at hrefs
    omega
  refine ⟨by simpa using hl, by omega, ?_, ?_⟩
  · by_contra hd
    simp [(h.ok i).held (by simpa using hd)] at hl
  · rintro b hb ⟨hdev, hno⟩
    simp only [hdev, hno, hb, and_self, ↓reduceIte] at hrefs
    omega

theorem recycle (h : CacheInv c pins wait dirty L) (hr : (c.buf i).refcnt = 0)
    (hn : ∀ j, ¬ c.Caches j b) :
    CacheInv (c.set i { c.buf i with dev := rootDev, blockno := b, valid := false, refcnt := 1 }) pins
      (update wait i (wait i + 1)) dirty L := by
  obtain ⟨hl, hw, hd, hp⟩ := h.free_of_refcnt hr
  have hb : b ∉ pins := fun hb => (h.pinned b hb).elim (fun j hj => hn j hj.1)
  have hother {j : Fin nBuf} (hj : j ≠ i) (x : ℕ) :
      (c.set i { c.buf i with dev := rootDev, blockno := b, valid := false, refcnt := 1 }).Caches j x ↔
        c.Caches j x := by
    simp [Bcache.Caches, Bcache.set_buf_of_ne hj]
  refine ⟨h.all, ?_, ?_, ?_, h.home⟩
  · intro j k x hj hk
    by_cases hji : j = i <;> by_cases hki : k = i
    · rw [hji, hki]
    · subst hji
      rw [hother hki] at hk
      rw [← hj.2, Bcache.set_buf_self] at hk
      exact absurd hk (hn k)
    · subst hki
      rw [hother hji] at hj
      rw [← hk.2, Bcache.set_buf_self] at hj
      exact absurd hj (hn j)
    · exact h.uniq j k x ((hother hji x).mp hj) ((hother hki x).mp hk)
  · intro j
    by_cases hj : j = i
    · subst hj
      rw [Bcache.set_buf_self, update_self]
      exact ⟨by simp [hl, hw, hb], by simp, by simp [hd], by simp [hl], by simp⟩
    · rw [Bcache.set_buf_of_ne hj, update_of_ne hj]
      exact h.ok j
  · intro x hx
    obtain ⟨j, hj, hv⟩ := h.pinned x hx
    have hji : j ≠ i := fun he => hp x hx (he ▸ hj)
    exact ⟨j, (hother hji x).mpr hj, by rw [Bcache.set_buf_of_ne hji]; exact hv⟩

theorem bget (h : CacheInv c pins wait dirty L) (hb : c.bget b = some (c', i)) :
    CacheInv c' pins (update wait i (wait i + 1)) dirty L ∧ c'.Caches i b ∧
      c'.disk = c.disk ∧ ∀ j ≠ i, c'.buf j = c.buf j := by
  unfold Bcache.bget at hb
  split at hb
  · rename_i k hk
    cases hb
    have hc : c.Caches i b := by simpa using List.find?_some hk
    refine ⟨?_, by simpa [Bcache.Caches] using hc, rfl, fun j hj => Bcache.set_buf_of_ne hj⟩
    have hok := h.ok i
    have := h.retag hc (y := { c.buf i with refcnt := (c.buf i).refcnt + 1 }) (w := wait i + 1)
      (d := dirty i) hc h.all id ⟨by simp only [hok.refs]; omega, fun _ => hc.1, hok.held, hok.locked, hok.data⟩
    rwa [update_eq_self] at this
  · rename_i hn
    split at hb
    · rename_i k hk
      cases hb
      have hr : (c.buf i).refcnt = 0 := by simpa using List.find?_some hk
      exact ⟨h.recycle hr (h.find_none hn), by simp [Bcache.Caches], rfl,
        fun j hj => Bcache.set_buf_of_ne hj⟩
    · cases hb

theorem acquire (h : CacheInv c pins wait dirty L) (hi : c.Caches i b) (hw : 0 < wait i)
    (ha : c.acquire p i = some c') :
    CacheInv c' pins (update wait i (wait i - 1)) dirty L ∧ c'.Caches i b ∧
      c'.disk = c.disk ∧ (∀ j ≠ i, c'.buf j = c.buf j) ∧ (c'.buf i).lock = some p ∧
      (c'.buf i).valid = true ∧ dirty i = false := by
  have hok := h.ok i
  unfold Bcache.acquire at ha
  split_ifs at ha with hl hv
  all_goals
    have hd : dirty i = false := by
      by_contra hd
      exact hl (hok.held (by simpa using hd))
    cases ha
    refine ⟨?_, by simpa [Bcache.Caches] using hi, rfl, fun j hj => Bcache.set_buf_of_ne hj,
      by simp, by simp [*], hd⟩
  · have := h.retag hi (y := { c.buf i with lock := some p }) (w := wait i - 1) (d := dirty i) hi h.all id
      ⟨by simp only [hok.refs, hl]; simp; omega, fun _ => hi.1, by simp, by simp [hv, hi.1], hok.data⟩
    rwa [update_eq_self] at this
  · have hb : b ∉ pins := by
      intro hb
      obtain ⟨j, hj, hjv⟩ := h.pinned b hb
      rw [h.uniq j i b hj hi] at hjv
      exact hv hjv
    have := h.retag hi (w := wait i - 1) (d := dirty i)
      (y := { c.buf i with lock := some p, valid := true, data := c.disk (c.buf i).blockno })
      hi h.all (fun _ => rfl)
      ⟨by simp only [hok.refs, hl]; simp; omega, fun _ => hi.1, by simp, by simp [hi.1],
        by simp [hi.2, h.home b hb]⟩
    rwa [update_eq_self] at this

theorem bread (h : CacheInv c pins wait dirty L) (hb : c.bread p b = some (c', i)) :
    CacheInv c' pins wait dirty L ∧ c'.Caches i b ∧ c'.disk = c.disk ∧
      (∀ j ≠ i, c'.buf j = c.buf j) ∧ (c'.buf i).lock = some p ∧ (c'.buf i).valid = true ∧
      dirty i = false ∧ (c'.buf i).data = L b := by
  obtain ⟨⟨c₁, k⟩, hg, hm⟩ := Option.bind_eq_some_iff.mp hb
  obtain ⟨c₂, ha, he⟩ := Option.map_eq_some_iff.mp hm
  obtain ⟨rfl, rfl⟩ := Prod.mk.inj he
  obtain ⟨h₁, hc₁, hd₁, ho₁⟩ := h.bget hg
  obtain ⟨h₂, hc₂, hd₂, ho₂, hl, hv, hdirty⟩ := h₁.acquire hc₁ (by simp) ha
  simp only [update_self, Nat.add_sub_cancel, update_idem,
    update_eq_self] at h₂
  refine ⟨h₂, hc₂, hd₂.trans hd₁, fun j hj => (ho₂ j hj).trans (ho₁ j hj), hl, hv, hdirty, ?_⟩
  have hdata := (h₂.ok k).data hc₂.1 hv hdirty
  rwa [hc₂.2] at hdata

theorem brelse (h : CacheInv c pins wait dirty L) (hl : (c.buf i).lock.isSome)
    (hd : dirty i = false) : CacheInv (c.brelse i) pins wait dirty L := by
  have hok := h.ok i
  have hi : c.Caches i (c.buf i).blockno := ⟨(hok.locked hl).2, rfl⟩
  have hset (lru : List (Fin nBuf)) (hlru : ∀ j, j ∈ lru) : CacheInv ⟨c.disk, update c.buf i
      { c.buf i with lock := none, refcnt := (c.buf i).refcnt - 1 }, lru⟩ pins wait dirty L := by
    have := h.retag hi (y := { c.buf i with lock := none, refcnt := (c.buf i).refcnt - 1 })
      (w := wait i) (d := dirty i) hi hlru id
      ⟨by simp only [hok.refs, hl]; simp; omega, hok.used, by simp [hd], by simp, hok.data⟩
    rwa [update_eq_self, update_eq_self] at this
  unfold Bcache.brelse
  dsimp only
  split_ifs
  · refine hset _ (fun j => ?_)
    by_cases hj : j = i
    · exact hj ▸ List.mem_cons_self
    · exact List.mem_cons_of_mem _ ((List.mem_erase_of_ne hj).mpr (h.all j))
  · exact hset _ h.all

theorem setData (h : CacheInv c pins wait dirty L) (hl : (c.buf i).lock.isSome) (d : Block) :
    CacheInv (c.setData i d) pins wait (update dirty i true) L := by
  have hok := h.ok i
  have := h.retag ⟨(hok.locked hl).2, rfl⟩ (y := { c.buf i with data := d }) (w := wait i) (d := true)
    ⟨(hok.locked hl).2, rfl⟩ h.all id ⟨hok.refs, hok.used, fun _ => hl, hok.locked, by simp⟩
  rwa [update_eq_self] at this

theorem relog (h : CacheInv c pins wait dirty L) (hi : c.Caches i b) (hb : b ∈ pins) :
    CacheInv c pins wait (update dirty i false) (update L b (c.buf i).data) := by
  have hok := h.ok i
  have := h.rebind hi pins (update L b (c.buf i).data) c.disk (y := c.buf i) (w := wait i)
    (d := false) hi h.all (fun _ _ => Iff.rfl) (fun x hx => update_of_ne hx _ _)
    (fun _ _ => rfl) ⟨hok.refs, hok.used, by simp, hok.locked, by simp [hi.2]⟩
    (fun _ => (h.pinned b hb).elim (fun j hj => h.uniq j i b hj.1 hi ▸ hj.2)) (fun hn => absurd hb hn)
  rwa [update_eq_self, update_eq_self] at this

theorem pin (h : CacheInv c pins wait dirty L) (hi : c.Caches i b) (hb : b ∉ pins)
    (hv : (c.buf i).valid = true) :
    CacheInv (c.bpin i) (pins ++ [b]) wait (update dirty i false)
      (update L b (c.buf i).data) := by
  have hok := h.ok i
  have := h.rebind hi (pins ++ [b]) (update L b (c.buf i).data) c.disk
    (y := { c.buf i with refcnt := (c.buf i).refcnt + 1 }) (w := wait i) (d := false) hi h.all
    (fun x hx => by simp [hx]) (fun x hx => update_of_ne hx _ _) (fun _ _ => rfl)
    ⟨by simp [hok.refs, hi.1, hi.2, hb], hok.used, by simp, hok.locked, by simp [hi.2]⟩ (fun _ => hv)
    (fun hn => absurd (by simp) hn)
  rwa [update_eq_self] at this

theorem overwrite (h : CacheInv c pins wait dirty L) (hi : c.Caches i b)
    (hv : (c.buf i).valid = true) (d : Block) :
    CacheInv ((c.setData i d).bwrite i) pins wait dirty (update L b d) := by
  have hok := h.ok i
  have := h.rebind hi pins (update L b d) (update c.disk b d)
    (y := { c.buf i with data := d }) (w := wait i) (d := dirty i) hi h.all (fun _ _ => Iff.rfl)
    (fun x hx => update_of_ne hx _ _) (fun x hx => update_of_ne hx _ _)
    ⟨hok.refs, hok.used, hok.held, hok.locked, by simp [hi.2]⟩ (fun _ => hv) (by simp)
  rw [update_eq_self, update_eq_self] at this
  simpa only [Bcache.bwrite, Bcache.setData, Bcache.set, update_self, hi.2] using this

theorem unpin (h : CacheInv c (b :: pins) wait dirty L) (hi : c.Caches i b) (hb : b ∉ pins)
    (hL : L b = c.disk b) : CacheInv (c.bunpin i) pins wait dirty L := by
  have hok := h.ok i
  have := h.rebind hi pins L c.disk (w := wait i) (d := dirty i)
    (y := { c.buf i with refcnt := (c.buf i).refcnt - 1 }) hi h.all
    (fun x hx => by simp [hx]) (fun _ _ => rfl) (fun _ _ => rfl)
    ⟨by simp [hok.refs, hi.1, hi.2, hb], hok.used, hok.held, hok.locked, hok.data⟩ (fun hp => absurd hp hb)
    (fun _ => hL)
  rwa [update_eq_self, update_eq_self] at this

end CacheInv

end Xv6.Logging
