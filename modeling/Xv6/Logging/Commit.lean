import Xv6.Logging.Bcache
import Xv6.Logging.Admission
import Xv6.Lib.Replay

set_option linter.unusedSectionVars false

namespace Xv6.Logging

open Function (update)

def readEntries (d : Block) : List ℕ := (List.range (d.le 0 4)).map (fun i => d.le (4 + 4 * i) 4)

def writeEntries (d : Block) (k : ℕ) : List ℕ → Block
  | [] => d
  | b :: bs => writeEntries (d.setLe (4 + 4 * k) 4 b) (k + 1) bs

def fillHead (d : Block) (block : List ℕ) : Block := writeEntries (d.setLe 0 4 block.length) 0 block

theorem le_writeEntries (d : Block) (k : ℕ) (bs : List ℕ) {off w : ℕ} (h : off + w ≤ 4 + 4 * k) :
    (writeEntries d k bs).le off w = d.le off w := by
  induction bs generalizing d k with
  | nil => rfl
  | cons b bs ih =>
    rw [writeEntries, ih _ _ (by omega), Lib.Bytes.le_setLe_of_disjoint (by omega)]

theorem le_writeEntries_entry (d : Block) (k : ℕ) (bs : List ℕ) (hk : k + bs.length ≤ 255)
    (hb : ∀ b ∈ bs, b < 2 ^ 32) (i : ℕ) (hi : i < bs.length) :
    (writeEntries d k bs).le (4 + 4 * (k + i)) 4 = bs[i] := by
  induction bs generalizing d k i with
  | nil => simp at hi
  | cons b bs ih =>
    rw [List.length_cons] at hk
    cases i with
    | zero =>
      rw [writeEntries, le_writeEntries _ _ _ (by omega), Nat.add_zero,
        Lib.Bytes.le_setLe _ (by simp only [bSize]; omega)]
      exact Nat.mod_eq_of_lt (hb b (by simp))
    | succ i =>
      rw [writeEntries, show k + (i + 1) = k + 1 + i by omega]
      exact ih _ _ (by omega) (fun b hb' => hb b (by simp [hb'])) i (by simpa using hi)

theorem readEntries_fillHead (d : Block) (bs : List ℕ) (hn : bs.length ≤ 255)
    (hb : ∀ b ∈ bs, b < 2 ^ 32) : readEntries (fillHead d bs) = bs := by
  have hlen : (fillHead d bs).le 0 4 = bs.length := by
    rw [fillHead, le_writeEntries _ _ _ (by omega), Lib.Bytes.le_setLe _ (by simp [bSize])]
    exact Nat.mod_eq_of_lt (by omega)
  rw [readEntries, hlen]
  apply List.ext_getElem (by simp)
  intro i hi hi'
  simp only [List.getElem_map, List.getElem_range]
  have := le_writeEntries_entry (d.setLe 0 4 bs.length) 0 bs (by omega) hb i hi'
  rwa [Nat.zero_add] at this

variable {P : Type}

namespace Bcache

def writeLog (c : Bcache P) (p : P) (start tail blockno : ℕ) : Option (Bcache P) := do
  let (c, dst) ← c.bread p (start + tail + 1)
  let (c, src) ← c.bread p blockno
  let c := (c.setData dst (c.buf src).data).bwrite dst
  return (c.brelse src).brelse dst

def installTrans (c : Bcache P) (p : P) (recovering : Bool) (start tail blockno : ℕ) :
    Option (Bcache P) := do
  let (c, lbuf) ← c.bread p (start + tail + 1)
  let (c, dbuf) ← c.bread p blockno
  let c := (c.setData dbuf (c.buf lbuf).data).bwrite dbuf
  let c := if recovering then c else c.bunpin dbuf
  return (c.brelse lbuf).brelse dbuf

def readHead (c : Bcache P) (p : P) (start : ℕ) : Option (Bcache P × List ℕ) := do
  let (c, b) ← c.bread p start
  return (c.brelse b, readEntries (c.buf b).data)

def writeHead (c : Bcache P) (p : P) (start : ℕ) (block : List ℕ) : Option (Bcache P) := do
  let (c, b) ← c.bread p start
  let c := (c.setData b (fillHead (c.buf b).data block)).bwrite b
  return c.brelse b

end Bcache

namespace CacheInv

variable {c c' : Bcache P} {pins : List ℕ} {wait : Fin nBuf → ℕ} {dirty : Fin nBuf → Bool}
  {L : ℕ → Block} {b start tail : ℕ} {p : P}

theorem brelse_disk (c : Bcache P) (i : Fin nBuf) : (c.brelse i).disk = c.disk := by
  unfold Bcache.brelse
  dsimp only
  split_ifs <;> rfl

theorem brelse_buf_of_ne (c : Bcache P) {i j : Fin nBuf} (h : j ≠ i) :
    (c.brelse i).buf j = c.buf j := by
  unfold Bcache.brelse
  dsimp only
  split_ifs <;> exact Bcache.set_buf_of_ne h

theorem bread_two {c₁ c₂ : Bcache P} {x y : ℕ} {i j : Fin nBuf} (h : CacheInv c pins wait dirty L)
    (hxy : x ≠ y) (h₁ : c.bread p x = some (c₁, i)) (h₂ : c₁.bread p y = some (c₂, j)) :
    CacheInv c₂ pins wait dirty L ∧ c₂.disk = c.disk ∧ i ≠ j ∧
      (c₂.Caches i x ∧ (c₂.buf i).lock = some p ∧ (c₂.buf i).valid = true ∧ dirty i = false ∧
        (c₂.buf i).data = L x) ∧
      (c₂.Caches j y ∧ (c₂.buf j).lock = some p ∧ (c₂.buf j).valid = true ∧ dirty j = false ∧
        (c₂.buf j).data = L y) := by
  obtain ⟨hi, hc, hd, ho, hl, hv, hdt, hdata⟩ := h.bread h₁
  obtain ⟨hi', hc', hd', ho', hl', hv', hdt', hdata'⟩ := hi.bread h₂
  have hij : i ≠ j := by
    rintro rfl
    by_cases hcase : c₁.Caches i y
    · exact hxy (hc.2.symm.trans hcase.2)
    · have hb := (Option.bind_eq_some_iff.mp h₂)
      obtain ⟨⟨c₃, k⟩, hg, hm⟩ := hb
      obtain ⟨c₄, ha, he⟩ := Option.map_eq_some_iff.mp hm
      obtain ⟨rfl, rfl⟩ := Prod.mk.inj he
      have hlock : (c₃.buf k).lock.isSome := by
        unfold Bcache.bget at hg
        split at hg
        · cases hg
          simp [hl]
        · split at hg
          · cases hg
            simp [hl]
          · cases hg
      simp [Bcache.acquire, hlock] at ha
  refine ⟨hi', hd'.trans hd, hij, ?_, hc', hl', hv', hdt', hdata'⟩
  have hbuf := ho' i hij
  simp only [Bcache.Caches, hbuf]
  exact ⟨hc, hl, hv, hdt, hdata⟩

theorem writeLog (h : CacheInv c pins wait dirty L) (hne : start + tail + 1 ≠ b)
    (hw : c.writeLog p start tail b = some c') :
    CacheInv c' pins wait dirty (update L (start + tail + 1) (L b)) ∧
      c'.disk = update c.disk (start + tail + 1) (L b) := by
  simp only [Bcache.writeLog, Option.bind_eq_bind, Option.bind_eq_some_iff, Option.pure_def,
    Option.some.injEq, Prod.exists] at hw
  obtain ⟨c₁, i, h₁, c₂, j, h₂, rfl⟩ := hw
  obtain ⟨hi, hd, hij, ⟨hci, hli, hvi, hdi, -⟩, hcj, hlj, -, hdj, hdata⟩ := h.bread_two hne h₁ h₂
  rw [hdata]
  have ho := hi.overwrite hci hvi (L b)
  have hlj' : (((c₂.setData i (L b)).bwrite i).buf j).lock.isSome := by
    simp [Bcache.bwrite, Bcache.setData, Bcache.set_buf_of_ne hij.symm, hlj]
  have hli' : ((((c₂.setData i (L b)).bwrite i).brelse j).buf i).lock.isSome := by
    rw [brelse_buf_of_ne _ hij]
    simp [Bcache.bwrite, Bcache.setData, hli]
  refine ⟨(ho.brelse hlj' hdj).brelse hli' hdi, ?_⟩
  rw [brelse_disk, brelse_disk]
  simp [Bcache.bwrite, Bcache.setData, hci.2, hd]

theorem writeHead (h : CacheInv c pins wait dirty L) {block : List ℕ}
    (hw : c.writeHead p start block = some c') :
    CacheInv c' pins wait dirty (update L start (fillHead (L start) block)) ∧
      c'.disk = update c.disk start (fillHead (L start) block) := by
  simp only [Bcache.writeHead, Option.bind_eq_bind, Option.bind_eq_some_iff, Option.pure_def,
    Option.some.injEq, Prod.exists] at hw
  obtain ⟨c₁, i, h₁, rfl⟩ := hw
  obtain ⟨hi, hc, hd, -, hl, hv, hdt, hdata⟩ := h.bread h₁
  rw [hdata]
  have ho := hi.overwrite hc hv (fillHead (L start) block)
  refine ⟨ho.brelse (by simp [Bcache.bwrite, Bcache.setData, hl]) hdt, ?_⟩
  rw [brelse_disk]
  simp [Bcache.bwrite, Bcache.setData, hc.2, hd]

theorem readHead (h : CacheInv c pins wait dirty L) {block : List ℕ}
    (hr : c.readHead p start = some (c', block)) :
    CacheInv c' pins wait dirty L ∧ c'.disk = c.disk ∧ block = readEntries (L start) := by
  simp only [Bcache.readHead, Option.bind_eq_bind, Option.bind_eq_some_iff, Option.pure_def,
    Option.some.injEq, Prod.exists, Prod.mk.injEq] at hr
  obtain ⟨c₁, i, h₁, rfl, rfl⟩ := hr
  obtain ⟨hi, -, hd, -, hl, -, hdt, hdata⟩ := h.bread h₁
  exact ⟨hi.brelse (by simp [hl]) hdt, (brelse_disk _ _).trans hd, by rw [hdata]⟩

theorem installTrans_recovering (h : CacheInv c pins wait dirty L) (hne : start + tail + 1 ≠ b)
    (hw : c.installTrans p true start tail b = some c') :
    CacheInv c' pins wait dirty (update L b (L (start + tail + 1))) ∧
      c'.disk = update c.disk b (L (start + tail + 1)) := by
  simp only [Bcache.installTrans, Option.bind_eq_bind, Option.bind_eq_some_iff, Option.pure_def,
    Option.some.injEq, Prod.exists, ↓reduceIte] at hw
  obtain ⟨c₁, i, h₁, c₂, j, h₂, rfl⟩ := hw
  obtain ⟨hi, hd, hij, ⟨-, hli, -, hdi, hdata⟩, hcj, hlj, hvj, hdj, -⟩ := h.bread_two hne h₁ h₂
  rw [hdata]
  have ho := hi.overwrite hcj hvj (L (start + tail + 1))
  have hli' : (((c₂.setData j (L (start + tail + 1))).bwrite j).buf i).lock.isSome := by
    simp [Bcache.bwrite, Bcache.setData, Bcache.set_buf_of_ne hij, hli]
  have hlj' : ((((c₂.setData j (L (start + tail + 1))).bwrite j).brelse i).buf j).lock.isSome := by
    rw [brelse_buf_of_ne _ hij.symm]
    simp [Bcache.bwrite, Bcache.setData, hlj]
  refine ⟨(ho.brelse hli' hdi).brelse hlj' hdj, ?_⟩
  rw [brelse_disk, brelse_disk]
  simp [Bcache.bwrite, Bcache.setData, hcj.2, hd]

theorem installTrans (h : CacheInv c (b :: pins) wait dirty L) (hb : b ∉ pins)
    (hne : start + tail + 1 ≠ b) (hw : c.installTrans p false start tail b = some c') :
    CacheInv c' pins wait dirty (update L b (L (start + tail + 1))) ∧
      c'.disk = update c.disk b (L (start + tail + 1)) := by
  simp only [Bcache.installTrans, Option.bind_eq_bind, Option.bind_eq_some_iff, Option.pure_def,
    Option.some.injEq, Prod.exists, Bool.false_eq_true, ↓reduceIte] at hw
  obtain ⟨c₁, i, h₁, c₂, j, h₂, rfl⟩ := hw
  obtain ⟨hi, hd, hij, ⟨-, hli, -, hdi, hdata⟩, hcj, hlj, hvj, hdj, -⟩ := h.bread_two hne h₁ h₂
  rw [hdata]
  have ho := hi.overwrite hcj hvj (L (start + tail + 1))
  have hcw : ((c₂.setData j (L (start + tail + 1))).bwrite j).Caches j b := by
    simpa [Bcache.Caches, Bcache.bwrite, Bcache.setData] using hcj
  have hu := ho.unpin hcw hb (by simp [Bcache.bwrite, Bcache.setData, hcj.2])
  have hli' : ((((c₂.setData j (L (start + tail + 1))).bwrite j).bunpin j).buf i).lock.isSome := by
    simp [Bcache.bwrite, Bcache.setData, Bcache.bunpin, Bcache.set, hij, hli]
  have hlj' : (((((c₂.setData j (L (start + tail + 1))).bwrite j).bunpin j).brelse i).buf j).lock.isSome := by
    rw [brelse_buf_of_ne _ hij.symm]
    simp [Bcache.bwrite, Bcache.setData, Bcache.bunpin, hlj]
  refine ⟨(hu.brelse hli' hdi).brelse hlj' hdj, ?_⟩
  rw [brelse_disk, brelse_disk]
  simp [Bcache.bwrite, Bcache.setData, Bcache.bunpin, hcj.2, hd]

end CacheInv

end Xv6.Logging
