import Mathlib
import Xv6.Kernel.Conservation

namespace Xv6.Kernel

open Lib Vm Prog Transition

section Path

variable {pt : PageTable} {va va' a b : ℕ}

def withPath (pt : PageTable) (va a b : ℕ) : PageTable := (pt.link 2 va a).link 1 va b

theorem node0_link2 : (pt.link 2 va a).node0 va = none := by
  rw [PageTable.node0, PageTable.node1_link2]
  rfl

theorem node0_withPath : (withPath pt va a b).node0 va = some (.empty b) :=
  PageTable.node0_link1 PageTable.node1_link2

theorem leaf_withPath (h : pt.node1 va = none) : (withPath pt va a b).leaf va' = pt.leaf va' := by
  rw [withPath, PageTable.leaf_link1 PageTable.node1_link2 node0_link2, PageTable.leaf_link2 h]

theorem pages_withPath (h : pt.node1 va = none) : (withPath pt va a b).pages = b ::ₘ a ::ₘ pt.pages := by
  rw [withPath, PageTable.pages_link1 PageTable.node1_link2 node0_link2, PageTable.pages_link2 h]

theorem pages_newLeaf {n : Node Pte} (hn : pt.node0 va = some n) (hleaf : pt.leaf va = none) (h : va < maxVa)
    (pte : Pte) : (pt.setLeaf va (some pte)).pages = pt.pages + PageTable.leafPage va (some pte) := by
  have hs := PageTable.pages_setLeaf (o := some pte) hn h
  rw [hleaf] at hs
  exact (add_zero _).symm.trans hs

end Path

theorem nProc_pos : 0 < nProc := by decide

theorem nInode_pos : 0 < nInode := by decide

theorem nFile_pos : 0 < nFile := by decide

theorem leaf_rwx : (true || true || true) = true := rfl

def bootSys : Sys where
  sb := Fs.mkfsSuperblock
  endPage := 524321
  trampolinePage := 524295
  kernelTable := List.range' 524321 70
  kstack i := 524391 + i
  initproc := ⟨0, nProc_pos⟩

def bootFrame : PageTable :=
  ((withPath (.empty 524455) trampoline 524456 524457).setLeaf trampoline (some (trampolinePte 524295))).setLeaf
    trapframe (some (trapframePte 524461))

def bootTable : PageTable :=
  (withPath bootFrame 0 524458 524459).setLeaf 0 (some ⟨524460, true, true, true, true, leaf_rwx⟩)

theorem node0_bootFrame : ∃ n, ((withPath (.empty 524455) trampoline 524456 524457).setLeaf trampoline
    (some (trampolinePte 524295))).node0 trapframe = some n := by
  apply Option.isSome_iff_exists.mp
  rw [PageTable.node0_setLeaf_isSome]
  exact Option.isSome_of_eq_some node0_withPath

theorem leaf_bootTable {va : ℕ} (h : va < 2 ^ 39) : bootTable.leaf va =
    if va / pgSize = 0 then some ⟨524460, true, true, true, true, rfl⟩
    else if va / pgSize = trapframe / pgSize then some (trapframePte 524461)
    else if va / pgSize = trampoline / pgSize then some (trampolinePte 524295) else none := by
  obtain ⟨n, hn⟩ := node0_bootFrame
  rw [bootTable, PageTable.leaf_setLeaf node0_withPath (by decide) h, leaf_withPath rfl, bootFrame,
    PageTable.leaf_setLeaf hn (by decide) h, PageTable.leaf_setLeaf node0_withPath (by decide) h, leaf_withPath rfl,
    leaf_empty]
  rfl

theorem pages_bootTable : bootTable.pages = ↑(List.range' 524455 6) := by
  obtain ⟨n, hn⟩ := node0_bootFrame
  rw [bootTable, pages_newLeaf node0_withPath _ (by decide), pages_withPath rfl, bootFrame,
    pages_newLeaf hn _ (by decide), pages_newLeaf node0_withPath _ (by decide), pages_withPath rfl]
  · rw [PageTable.pages, Table.total_empty]
    decide
  · rfl
  · rfl
  · rfl

theorem image_bootTable : Image bootTable pgSize := by
  have hround : pgRoundUp pgSize = pgSize := by decide
  constructor
  · constructor
    · rw [leaf_bootTable (by decide)]
      decide
    · rw [leaf_bootTable (by decide)]
      decide
    · intro va hge hlt
      rw [leaf_bootTable hlt, if_neg, if_neg, if_neg]
      all_goals
        simp only [pgSize, trapframe, trampoline, maxVa] at *
        omega
  · intro va hva
    rw [hround] at hva
    rw [leaf_bootTable (hva.trans (by decide)), if_pos (Nat.div_eq_of_lt hva)]
    exact Option.some_ne_none _
  · intro va hge hlt
    rw [hround] at hge
    rw [leaf_bootTable (lt_of_lt_trapframe hlt), if_neg, if_neg, if_neg]
    all_goals
      simp only [pgSize, trapframe, trampoline, maxVa] at *
      omega
  · rw [pages_bootTable]
    decide
  · decide

def bootProc : Proc := { Proc.empty with sz := pgSize, pagetable := some bootTable, trapframe := some 524461 }

def bootShared (fs : Fs.FsState) : Shared where
  freelist := List.range' 524462 (physTop - 524462)
  mem _ := fun _ => 0
  ftable _ := ⟨.none, 0, false, false, 0, ⟨0, nInode_pos⟩⟩
  pipes _ := none
  procs i := if i = bootSys.initproc then ⟨.runnable, 1, none, 0, false, some bootProc⟩
    else ⟨.unused, 0, none, 0, false, some .empty⟩
  nextpid := 2
  fs := fs

def bootMachine (fs : Fs.FsState) : Machine := ⟨bootShared fs, fun _ => .idle, fun _ => none⟩

theorem booted (fs : Fs.FsState) : Booted bootSys (bootMachine fs) := by
  constructor
  · intro i
    rfl
  · intro i
    rfl
  · intro f
    exact ⟨rfl, rfl⟩
  · intro page
    rfl
  · intro i hi
    rw [show (bootMachine fs).shared.procs i = ⟨.unused, 0, none, 0, false, some .empty⟩ from if_neg hi]
    exact ⟨rfl, .empty, rfl, rfl, rfl, rfl, fun _ => rfl, fun _ => rfl⟩
  · refine ⟨bootProc, bootTable, 524461, rfl, rfl, rfl, rfl, fun _ => rfl, fun _ => rfl, image_bootTable, ?_⟩
    have hstacks : Finset.univ.val.map bootSys.kstack = ↑(List.range' 524391 64) := by decide
    have hsplit : List.range' 524321 (physTop - 524321) = List.range' 524321 70 ++ (List.range' 524391 64 ++
        (List.range' 524455 6 ++ (List.range' 524461 1 ++ List.range' 524462 (physTop - 524462)))) := by
      rw [List.range'_append_1, List.range'_append_1, List.range'_append_1, List.range'_append_1]
      rfl
    have hpool : bootSys.pool.val = ↑(List.range' 524321 (physTop - 524321)) := rfl
    rw [pages_bootTable, hpool, hsplit, Sys.kernelPages, hstacks]
    simp only [← Multiset.coe_add]
    rw [show ({524461} : Multiset ℕ) = ↑(List.range' 524461 1) from rfl,
      show (bootMachine fs).shared.freelist = List.range' 524462 (physTop - 524462) from rfl,
      show bootSys.kernelTable = List.range' 524321 70 from rfl]
    abel

def mayStart (c : Machine) (i : Fin nProc) : Op → Bool
  | .run => (c.locals i).slot.isNone
  | _ => (c.locals i).slot = some i

theorem enabled_of_mayStart {i : Fin nProc} {op : Op} {c : Machine} (h : mayStart c i op = true) :
    Enabled c (.start i op) := by
  cases op with
  | run => exact Option.isNone_iff_eq_none.mp h
  | _ => exact (of_decide_eq_true h : (c.locals i).slot = some i)

theorem enabled_of_not_start (c : Machine) (m : Move (Fin nProc) Op) (h : ∀ j o, m ≠ .start j o) : Enabled c m := by
  cases m with
  | start i op => exact absurd rfl (h i op)
  | _ => trivial

def bootFs : Fs.FsState where
  cache _ := fun _ => 0
  saved _ := fun _ => 0
  itable _ := { inum := 1, ref := 1, valid := true, type := tFile, major := 0, minor := 0, nlink := 1, size := 0,
                addrs := fun _ => 0 }

def theFile : Fs.FsM (Option (Fin nInode)) := return some ⟨0, nInode_pos⟩

end Xv6.Kernel
