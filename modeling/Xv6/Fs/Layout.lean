import Xv6.Lib.Bitmap
import Xv6.Params

namespace Xv6.Fs

open Lib

def nDirect : ℕ := 12
def nIndirect : ℕ := bSize / 4
def maxFile : ℕ := nDirect + nIndirect
def ipb : ℕ := bSize / 64
def bpb : ℕ := bSize * 8
def rootIno : ℕ := 1

/-- The fields of `struct superblock` that `fs.c` reads, laid out as `mkfs` does: the inode blocks
before the bitmap, and the bitmap before the `nblocks` data blocks that end the disk. -/
structure Superblock where
  size : ℕ
  nblocks : ℕ
  ninodes : ℕ
  inodestart : ℕ
  bmapstart : ℕ
  inodes_before : inodestart + (ninodes - 1) / ipb < bmapstart
  bitmap_before : bmapstart + (size - 1) / bpb < size - nblocks
  size_lt : size < 2 ^ 31

namespace Superblock

variable (sb : Superblock)

def iblock (i : ℕ) : ℕ := i / ipb + sb.inodestart

def bblock (b : ℕ) : ℕ := b / bpb + sb.bmapstart

def dataStart : ℕ := sb.size - sb.nblocks

def InData (b : ℕ) : Prop := sb.dataStart ≤ b ∧ b < sb.size

instance (b : ℕ) : Decidable (sb.InData b) := inferInstanceAs (Decidable (_ ∧ _))

variable {sb}

theorem iblock_lt {i : ℕ} (h : i < sb.ninodes) : sb.iblock i < sb.bmapstart := by
  have := sb.inodes_before
  have : i / ipb ≤ (sb.ninodes - 1) / ipb := Nat.div_le_div_right (by omega)
  unfold iblock
  omega

theorem bblock_mem {b : ℕ} (h : b < sb.size) :
    sb.bmapstart ≤ sb.bblock b ∧ sb.bblock b < sb.dataStart := by
  have := sb.bitmap_before
  have : b / bpb ≤ (sb.size - 1) / bpb := Nat.div_le_div_right (by omega)
  refine ⟨Nat.le_add_left _ _, ?_⟩
  unfold bblock dataStart
  omega

theorem iblock_ne_bblock {i b : ℕ} (hi : i < sb.ninodes) (hb : b < sb.size) :
    sb.iblock i ≠ sb.bblock b := by
  have := iblock_lt hi
  have := bblock_mem hb
  omega

theorem bmapstart_lt : sb.bmapstart < sb.dataStart :=
  Nat.lt_of_le_of_lt (Nat.le_add_right _ _) sb.bitmap_before

theorem iblock_lt_dataStart {i : ℕ} (h : i < sb.ninodes) : sb.iblock i < sb.dataStart :=
  (iblock_lt h).trans bmapstart_lt

end Superblock

def mkfsSuperblock : Superblock where
  size := fsSize
  nblocks := fsSize - 46
  ninodes := 200
  inodestart := 2 + nlog
  bmapstart := 45
  inodes_before := by decide
  bitmap_before := by decide
  size_lt := by decide

structure Dinode where
  type : ℕ
  major : ℕ
  minor : ℕ
  nlink : ℕ
  size : ℕ
  addrs : Fin (nDirect + 1) → ℕ

def Dinode.zero : Dinode := ⟨0, 0, 0, 0, 0, fun _ => 0⟩

def readDinode (b : Block) (k : ℕ) : Dinode where
  type := b.le (64 * k) 2
  major := b.le (64 * k + 2) 2
  minor := b.le (64 * k + 4) 2
  nlink := b.le (64 * k + 6) 2
  size := b.le (64 * k + 8) 4
  addrs := fun i => b.le (64 * k + 12 + 4 * i) 4

def digit (v k : ℕ) : UInt8 := UInt8.ofNat (v / 256 ^ k)

def Dinode.byte (d : Dinode) (i : ℕ) : UInt8 :=
  if i < 2 then digit d.type i
  else if i < 4 then digit d.major (i - 2)
  else if i < 6 then digit d.minor (i - 4)
  else if i < 8 then digit d.nlink (i - 6)
  else if i < 12 then digit d.size (i - 8)
  else if h : (i - 12) / 4 < nDirect + 1 then digit (d.addrs ⟨(i - 12) / 4, h⟩) ((i - 12) % 4)
  else 0

def writeDinode (b : Block) (k : ℕ) (d : Dinode) : Block := b.patch (64 * k) 64 d.byte

structure Dinode.Fits (d : Dinode) : Prop where
  type : d.type < 2 ^ 16
  major : d.major < 2 ^ 16
  minor : d.minor < 2 ^ 16
  nlink : d.nlink < 2 ^ 16
  size : d.size < 2 ^ 32
  addrs : ∀ i, d.addrs i < 2 ^ 32

theorem readDinode_fits (b : Block) (k : ℕ) : (readDinode b k).Fits :=
  ⟨Bytes.le_lt _ _ _, Bytes.le_lt _ _ _, Bytes.le_lt _ _ _, Bytes.le_lt _ _ _, Bytes.le_lt _ _ _,
    fun _ => Bytes.le_lt _ _ _⟩

theorem le_writeDinode {b : Block} {k off w v : ℕ} {d : Dinode} (hk : k < ipb) (hw : off + w ≤ 64)
    (hv : v < 256 ^ w) (h : ∀ j < w, d.byte (off + j) = digit v j) :
    (writeDinode b k d).le (64 * k + off) w = v := by
  have hkb : k < 16 := hk
  rw [Bytes.le_of_digits (v := v), Nat.mod_eq_of_lt hv]
  intro j hj
  rw [writeDinode, Bytes.get_patch_of_mem (by simp only [bSize]; omega) (by omega),
    show 64 * k + off + j - 64 * k = off + j by omega, h j hj, digit]

theorem readDinode_writeDinode {b : Block} {k : ℕ} {d : Dinode} (hk : k < ipb) (hd : d.Fits) :
    readDinode (writeDinode b k d) k = d := by
  have htype : (writeDinode b k d).le (64 * k) 2 = d.type :=
    le_writeDinode hk (show 0 + 2 ≤ 64 by omega) hd.type (fun j hj => by simp [Dinode.byte, hj])
  have hmajor : (writeDinode b k d).le (64 * k + 2) 2 = d.major :=
    le_writeDinode hk (by omega) hd.major (fun j hj => by
      simp only [Dinode.byte, show ¬ 2 + j < 2 by omega, show 2 + j < 4 by omega, ↓reduceIte,
        Nat.add_sub_cancel_left])
  have hminor : (writeDinode b k d).le (64 * k + 4) 2 = d.minor :=
    le_writeDinode hk (by omega) hd.minor (fun j hj => by
      simp only [Dinode.byte, show ¬ 4 + j < 2 by omega, show ¬ 4 + j < 4 by omega,
        show 4 + j < 6 by omega, ↓reduceIte, Nat.add_sub_cancel_left])
  have hnlink : (writeDinode b k d).le (64 * k + 6) 2 = d.nlink :=
    le_writeDinode hk (by omega) hd.nlink (fun j hj => by
      simp only [Dinode.byte, show ¬ 6 + j < 2 by omega, show ¬ 6 + j < 4 by omega,
        show ¬ 6 + j < 6 by omega, show 6 + j < 8 by omega, ↓reduceIte, Nat.add_sub_cancel_left])
  have hsize : (writeDinode b k d).le (64 * k + 8) 4 = d.size :=
    le_writeDinode hk (by omega) hd.size (fun j hj => by
      simp only [Dinode.byte, show ¬ 8 + j < 2 by omega, show ¬ 8 + j < 4 by omega,
        show ¬ 8 + j < 6 by omega, show ¬ 8 + j < 8 by omega, show 8 + j < 12 by omega, ↓reduceIte,
        Nat.add_sub_cancel_left])
  have haddr (i : Fin (nDirect + 1)) : (writeDinode b k d).le (64 * k + 12 + 4 * i) 4 = d.addrs i := by
    have hi : i.val < 13 := i.isLt
    rw [Nat.add_assoc]
    refine le_writeDinode hk (by omega) (hd.addrs i) (fun j hj => ?_)
    have hdiv : (12 + 4 * i.val + j - 12) / 4 = i.val := by omega
    have hmod : (12 + 4 * i.val + j - 12) % 4 = j := by omega
    simp only [Dinode.byte, show ¬ 12 + 4 * i.val + j < 2 by omega,
      show ¬ 12 + 4 * i.val + j < 4 by omega, show ¬ 12 + 4 * i.val + j < 6 by omega,
      show ¬ 12 + 4 * i.val + j < 8 by omega, show ¬ 12 + 4 * i.val + j < 12 by omega, ↓reduceIte,
      hdiv, hmod, i.isLt, ↓reduceDIte]
  simp only [readDinode, htype, hmajor, hminor, hnlink, hsize, haddr]

theorem readDinode_congr {b c : Block} {k : ℕ}
    (h : ∀ i, 64 * k ≤ i → i < 64 * k + 64 → b.get i = c.get i) : readDinode b k = readDinode c k := by
  have hle {off w : ℕ} (hw : off + w ≤ 64) : b.le (64 * k + off) w = c.le (64 * k + off) w :=
    Bytes.le_congr (fun j hj => h _ (by omega) (by omega))
  have haddr (i : Fin (nDirect + 1)) :
      b.le (64 * k + 12 + 4 * i) 4 = c.le (64 * k + 12 + 4 * i) 4 := by
    have hi : i.val < 13 := i.isLt
    rw [Nat.add_assoc]
    exact hle (by omega)
  simp only [readDinode, haddr]
  rw [show b.le (64 * k) 2 = c.le (64 * k) 2 from hle (show 0 + 2 ≤ 64 by omega), hle (by omega), hle (by omega),
    hle (by omega), hle (by omega)]

theorem readDinode_writeDinode_of_ne {b : Block} {k l : ℕ} {d : Dinode} (h : l ≠ k) :
    readDinode (writeDinode b k d) l = readDinode b l :=
  readDinode_congr (fun _ _ _ => Bytes.get_patch_of_not_mem (by omega))

end Xv6.Fs
