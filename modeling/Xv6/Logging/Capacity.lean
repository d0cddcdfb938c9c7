import Xv6.Logging.Transparent

set_option linter.unusedSectionVars false

namespace Xv6.Logging

open Lib.Transition

variable {P : Type} [DecidableEq P] [Fintype P] {start size : ℕ} {m : Machine P} {p : P} {b : ℕ}

def Machine.inUse (m : Machine P) : ℕ :=
  (∑ i, if (m.c.buf i).lock.isSome then 1 else 0) + (∑ p, if (m.want p).isSome then 1 else 0) + m.pins.length

theorem sum_waits (want : P → Option (Fin nBuf)) : ∑ i, waits want i = ∑ p, if (want p).isSome then 1 else 0 := by
  unfold waits
  rw [Finset.sum_comm]
  apply Finset.sum_congr rfl
  intro p _
  cases want p with
  | none => simp
  | some i => simp

namespace CacheInv

variable {c c' : Bcache P} {pins : List ℕ} {wait : Fin nBuf → ℕ} {dirty : Fin nBuf → Bool} {L : ℕ → Block} {i : Fin nBuf}

theorem sum_pinned_le (h : CacheInv c pins wait dirty L) :
    (∑ i, if (c.buf i).dev = rootDev ∧ (c.buf i).blockno ∈ pins then 1 else 0) ≤ pins.length := by
  rw [← Finset.card_filter]
  apply le_trans _ (List.toFinset_card_le pins)
  apply Finset.card_le_card_of_injOn (fun i => (c.buf i).blockno)
  · intro i hi
    rw [Finset.mem_coe, Finset.mem_filter] at hi
    exact List.mem_toFinset.mpr hi.2.2
  · intro i hi j hj heq
    rw [Finset.mem_coe, Finset.mem_filter] at hi hj
    exact h.uniq i j (c.buf i).blockno ⟨hi.2.1, rfl⟩ ⟨hj.2.1, heq.symm⟩

theorem sum_refcnt_le (h : CacheInv c pins wait dirty L) :
    ∑ i, (c.buf i).refcnt ≤ (∑ i, if (c.buf i).lock.isSome then 1 else 0) + ∑ i, wait i + pins.length := by
  have hrefs : ∑ i, (c.buf i).refcnt = ∑ i, ((if (c.buf i).lock.isSome then 1 else 0) + wait i +
      (if (c.buf i).dev = rootDev ∧ (c.buf i).blockno ∈ pins then 1 else 0)) :=
    Finset.sum_congr rfl (fun i _ => (h.ok i).refs)
  rw [hrefs, Finset.sum_add_distrib, Finset.sum_add_distrib]
  exact Nat.add_le_add_left h.sum_pinned_le _

theorem bget_isSome (h : CacheInv c pins wait dirty L) (hlt : ∑ i, (c.buf i).refcnt < nBuf) (b : ℕ) :
    (c.bget b).isSome := by
  unfold Bcache.bget
  split
  · rfl
  · split
    · rfl
    · next hnone =>
      have hpos : ∀ i, 1 ≤ (c.buf i).refcnt := by
        intro i
        have := List.find?_eq_none.mp hnone i (List.mem_reverse.mpr (h.all i))
        rw [decide_eq_true_eq] at this
        omega
      have hcard : nBuf ≤ ∑ i, (c.buf i).refcnt := by
        calc nBuf = ∑ _i : Fin nBuf, 1 := by simp
          _ ≤ ∑ i, (c.buf i).refcnt := Finset.sum_le_sum (fun i _ => hpos i)
      omega

theorem bget_of_caches (h : CacheInv c pins wait dirty L) (hi : c.Caches i b) : (c.bget b).isSome := by
  unfold Bcache.bget
  split
  · rfl
  · next hnone => exact absurd hi (h.find_none hnone i)

theorem sum_refcnt_bread (hb : c.bread p b = some (c', i)) :
    ∑ j, (c'.buf j).refcnt = ∑ j, (c.buf j).refcnt + 1 := by
  obtain ⟨⟨c₁, k⟩, hg, hm⟩ := Option.bind_eq_some_iff.mp hb
  obtain ⟨c₂, ha, he⟩ := Option.map_eq_some_iff.mp hm
  obtain ⟨rfl, rfl⟩ := Prod.mk.inj he
  have hacq : ∀ j, (c₂.buf j).refcnt = (c₁.buf j).refcnt := fun j => (Bcache.acquire_tag ha j).2
  have hget : ∀ j, (c₁.buf j).refcnt = (c.buf j).refcnt + if j = k then 1 else 0 := by
    intro j
    unfold Bcache.bget at hg
    split at hg
    · cases hg
      by_cases hj : j = k
      · subst hj
        rw [Bcache.set_buf_self, if_pos rfl]
      · rw [Bcache.set_buf_of_ne hj, if_neg hj, Nat.add_zero]
    · split at hg
      · next i hi =>
        cases hg
        have hr : (c.buf k).refcnt = 0 := by simpa using List.find?_some hi
        by_cases hj : j = k
        · subst hj
          rw [Bcache.set_buf_self, if_pos rfl, hr]
        · rw [Bcache.set_buf_of_ne hj, if_neg hj, Nat.add_zero]
      · cases hg
  rw [Finset.sum_congr rfl (fun j _ => (hacq j).trans (hget j)), Finset.sum_add_distrib, Finset.sum_ite_eq' Finset.univ k]
  rw [if_pos (Finset.mem_univ k)]

end CacheInv

/-- `bget` finds a buffer while the locked buffers, the processes that wait for one and the logged blocks are fewer
than the buffers. -/
theorem bget_finds_buffer {d₀ : ℕ → Block} (hsize : 0 < size) (hempty : readEntries (d₀ start) = [])
    (hrun : Run (machineStep start size) (fun _ _ => True) (boot P start size d₀ []) m) (huse : m.inUse < nBuf) :
    (∀ b, (m.c.bget b).isSome) ∧
      ∀ p b c i, m.c.bread p b = some (c, i) →
        (∀ b' ∈ m.pins, (c.bget b').isSome) ∧ (m.inUse + 1 < nBuf → ∀ b', (c.bget b').isSome) := by
  obtain ⟨L, hL, -⟩ := (MachineInv.of_run hsize hempty hrun).cache
  have hsum : ∑ i, (m.c.buf i).refcnt ≤ m.inUse := by
    have := hL.sum_refcnt_le
    rw [sum_waits] at this
    exact this
  refine ⟨hL.bget_isSome (Nat.lt_of_le_of_lt hsum huse), ?_⟩
  intro p b c i hb
  have hL' := (hL.bread hb).1
  constructor
  · intro b' hb'
    obtain ⟨j, hj, -⟩ := hL'.pinned b' hb'
    exact hL'.bget_of_caches hj
  · intro huse'
    apply hL'.bget_isSome
    rw [CacheInv.sum_refcnt_bread hb]
    omega

def firstProc : Fin nProc := ⟨0, by decide⟩

def nextReader : Fin nProc := ⟨30, by decide⟩

def readers (n : ℕ) : Option (Machine (Fin nProc)) :=
  execute (machineStep 2 nlog) (fun _ _ => True) (boot (Fin nProc) 2 nlog (fun _ _ => 0) [])
    ([.recover firstProc, .recover firstProc, .recover firstProc] ++ ((List.finRange nProc).take n).map (fun p => .bget p (100 + p)))

theorem thirtieth_reader_gets_buffer : ∃ m, readers 29 = some m ∧ (m.c.bget 200).isSome := by
  have hsome : (readers 29).isSome = true := by decide +kernel
  have huse : (readers 29).all (fun m => m.inUse < nBuf) = true := by decide +kernel
  obtain ⟨m, hm⟩ := Option.isSome_iff_exists.mp hsome
  rw [hm, Option.all_some, decide_eq_true_eq] at huse
  exact ⟨m, hm, (bget_finds_buffer (by decide) (by decide) (run_of_execute hm) huse).1 200⟩

theorem thirtyfirst_reader_panics : ∃ m, Run (machineStep 2 nlog) (fun _ _ => True)
    (boot (Fin nProc) 2 nlog (fun _ _ => 0) []) m ∧ m.mode = .running ∧ m.st.panicked = none ∧ m.Free nextReader ∧
    m.c.bget 200 = none := by
  have hsome : (readers 30).isSome = true := by decide +kernel
  have hall : (readers 30).all (fun m => m.mode = .running ∧ m.st.panicked.isNone ∧ m.Free nextReader ∧ (m.c.bget 200).isNone) =
      true := by
    decide +kernel
  obtain ⟨m, hm⟩ := Option.isSome_iff_exists.mp hsome
  rw [hm, Option.all_some, decide_eq_true_eq] at hall
  obtain ⟨hmode, hpanic, hfree, hnone⟩ := hall
  exact ⟨m, run_of_execute hm, hmode, Option.isNone_iff_eq_none.mp hpanic, hfree, Option.isNone_iff_eq_none.mp hnone⟩

end Xv6.Logging
