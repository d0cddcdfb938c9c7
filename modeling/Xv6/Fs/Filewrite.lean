import Mathlib.Algebra.Order.BigOperators.Group.Finset
import Xv6.Fs.DirectoryMap
import Xv6.Lib.SumUpdate

namespace Xv6.Fs.Filewrite

open Lib Lib.Transition Lib.Hoare
open Function (update update_of_ne update_self)

def maxChunk : ℕ := (maxOpBlocks - 1 - 1 - 2) / 2 * bSize

structure Write where
  id : ℕ
  data : List UInt8
  i : ℕ

structure Chunk where
  call : ℕ
  pos : ℕ
  bytes : List UInt8

structure Return where
  call : Write
  ret : ℤ

structure St (P : Type) where
  fs : FsState
  off : ℕ
  pc : P → Option Write
  calls : ℕ
  asked : ℕ
  log : List Chunk
  done : List Return

inductive Action (P : Type)
  | call (p : P) (data : List UInt8)
  | next (p : P)
  | other (fs : FsState)

def Write.n1 (w : Write) : ℕ := min (w.data.length - w.i) maxChunk

def chunk (sb : Superblock) (ip : Fin nInode) (w : Write) (off : ℕ) : FsM ℤ := do
  ilock sb ip
  writei sb ip (Src.kernel (fun k => w.data.getD (w.i + k) 0)) off w.n1

variable {P : Type} [DecidableEq P]

def St.finish (s : St P) (p : P) (w : Write) : St P :=
  { s with
    pc := update s.pc p none
    done := ⟨w, if w.i = w.data.length then w.data.length else -1⟩ :: s.done }

def St.wrote (s : St P) (p : P) (w : Write) (r : ℤ) (fs : FsState) : St P :=
  let t : St P := { s with
    fs := fs
    off := if 0 < r then (s.off + r.toNat) % 2 ^ 32 else s.off
    log := s.log ++ [⟨w.id, s.off, (w.data.drop w.i).take r.toNat⟩] }
  if r ≠ w.n1 then t.finish p w
  else { t with pc := update s.pc p (some { w with i := w.i + r.toNat }) }

def step (sb : Superblock) (ip : Fin nInode) (s : St P) : Action P → Option (St P)
  | .call p data => match s.pc p with
    | none => some { s with
        pc := update s.pc p (some ⟨s.calls, data, 0⟩)
        calls := s.calls + 1
        asked := s.asked + data.length }
    | some _ => none
  | .next p => match s.pc p with
    | none => none
    | some w =>
      if w.i < w.data.length then
        match chunk sb ip w s.off s.fs with
        | .ok (r, fs) => some (s.wrote p w r fs)
        | .error _ => none
      else some (s.finish p w)
  | .other fs => some { s with fs := fs }

structure Open (sb : Superblock) (ip : Fin nInode) (i : ℕ) (fs : FsState) : Prop where
  inv : FsInv sb fs
  ref : 0 < (fs.itable ip).ref
  inum : (fs.itable ip).inum = i
  type : (attr sb fs i).type ≠ 0

def Allowed (sb : Superblock) (ip : Fin nInode) (i start : ℕ) (s : St P) : Action P → Prop
  | .call _ data => start + s.asked + data.length ≤ maxFile * bSize
  | .next p => ∀ w, s.pc p = some w →
      lacking sb (s.fs.load sb ip) ip (touched s.off w.n1) ≤ freeBlocks sb s.fs.cache
  | .other fs => Open sb ip i fs ∧ contents sb fs i = contents sb s.fs i

def begin (P : Type) (fs : FsState) (start : ℕ) : St P where
  fs := fs
  off := start
  pc _ := none
  calls := 0
  asked := 0
  log := []
  done := []

/-! ### The log -/

def bytes (log : List Chunk) : List UInt8 := log.flatMap Chunk.bytes

def bytesOf (log : List Chunk) (i : ℕ) : List UInt8 := bytes (log.filter (fun c => c.call = i))

def Placed : ℕ → List Chunk → Prop
  | _, [] => True
  | pos, c :: log => c.pos = pos ∧ 0 < c.bytes.length ∧ c.bytes.length ≤ maxChunk ∧ Placed (pos + c.bytes.length) log

theorem bytes_append (log : List Chunk) (c : Chunk) : bytes (log ++ [c]) = bytes log ++ c.bytes := by
  simp [bytes]

theorem bytesOf_self (log : List Chunk) (c : Chunk) : bytesOf (log ++ [c]) c.call = bytesOf log c.call ++ c.bytes := by
  simp [bytesOf, bytes]

theorem bytesOf_of_ne {log : List Chunk} {c : Chunk} {i : ℕ} (h : c.call ≠ i) : bytesOf (log ++ [c]) i = bytesOf log i := by
  simp [bytesOf, bytes, h]

theorem Placed.append {pos : ℕ} {log : List Chunk} {c : Chunk} (h : Placed pos log) (hpos : c.pos = pos + (bytes log).length)
    (hc : 0 < c.bytes.length) (hmax : c.bytes.length ≤ maxChunk) : Placed pos (log ++ [c]) := by
  induction log generalizing pos with
  | nil => exact ⟨hpos, hc, hmax, trivial⟩
  | cons d log ih =>
    obtain ⟨hd, hd', hd'', hlog⟩ := h
    refine ⟨hd, hd', hd'', ih hlog ?_⟩
    rw [hpos, bytes, List.flatMap_cons, List.length_append, Nat.add_assoc]
    rfl

theorem overwrite_nil (l : List UInt8) (off : ℕ) : overwrite l off [] = l := by
  simp [overwrite]

theorem le_length_overwrite {l data : List UInt8} {off : ℕ} (h : off ≤ l.length) :
    off + data.length ≤ (overwrite l off data).length := by
  simp only [overwrite, List.length_append, List.length_take, List.length_drop]
  omega

theorem overwrite_overwrite {l a b : List UInt8} {off : ℕ} (h : off ≤ l.length) :
    overwrite (overwrite l off a) (off + a.length) b = overwrite l off (a ++ b) := by
  apply List.ext_getElem?
  intro o
  rw [getElem_overwrite (le_length_overwrite h), getElem_overwrite h, getElem_overwrite h, List.length_append,
    List.getElem?_append]
  split_ifs <;> first | omega | rfl | skip
  congr 1
  omega

/-! ### A chunk -/

section

variable {sb : Superblock} {ip : Fin nInode} {i : ℕ} {fs : FsState} {w : Write} {off : ℕ}

theorem Open.load (h : Open sb ip i fs) : Open sb ip i (fs.load sb ip) := by
  have hself : (fs.load sb ip).itable ip = ⟨disk sb fs.cache (fs.itable ip).inum, (fs.itable ip).inum, (fs.itable ip).ref, true⟩ :=
    update_self _ _ _
  refine ⟨h.inv.load h.ref ?_, ?_, ?_, ?_⟩
  · rw [h.inum]
    exact h.type
  · rw [hself]
    exact h.ref
  · rw [hself]
    exact h.inum
  · rw [attr_of_cache (show (fs.load sb ip).cache = fs.cache from rfl)]
    exact h.type

theorem chunk_effect (h : Open sb ip i fs) (hoff : off ≤ (contents sb fs i).length) (hmax : off + w.n1 ≤ maxFile * bSize)
    (hroom : lacking sb (fs.load sb ip) ip (touched off w.n1) ≤ freeBlocks sb fs.cache) :
    ∃ t, chunk sb ip w off fs = .ok ((w.n1 : ℤ), t) ∧ Open sb ip i t ∧
      contents sb t i = overwrite (contents sb fs i) off ((List.range w.n1).map (fun k => w.data.getD (w.i + k) 0)) := by
  have hl := h.load
  have hcache : contents sb (fs.load sb ip) = contents sb fs := contents_of_cache rfl
  have hvalid : ((fs.load sb ip).itable ip).valid = true := by
    simp only [FsState.load, update_self]
  have hsmall : maxFile * bSize < 2 ^ 32 := by decide
  have hwp : wp (chunk sb ip w off) fs (fun r t => r = (w.n1 : ℤ) ∧ Open sb ip i t ∧
      contents sb t i = overwrite (contents sb fs i) off ((List.range w.n1).map (fun k => w.data.getD (w.i + k) 0)))
      (fun _ => False) := by
    rw [chunk, wp_bind]
    apply ilock_effect h.inv h.ref (by rw [h.inum]; exact h.type)
    refine wp_mono (writei_effect hl.inv hl.ref hvalid (by omega) (by omega)) ?_ ?_
    · rintro r t ⟨hw, hr⟩
      rw [hl.inum, hcache] at hr
      rw [if_pos ⟨hoff, hmax⟩] at hr
      refine ⟨hr, ⟨hw.inv, ?_, ?_, ?_⟩, ?_⟩
      · rw [(hw.table ip).1]
        exact hl.ref
      · rw [(hw.table ip).2.1]
        exact hl.inum
      · rw [hw.attr]
        exact hl.type
      · rw [hw.contents, hl.inum, update_self, hcache, writeAt, if_pos]
        rw [List.length_map, List.length_range]
        exact ⟨hoff, hmax⟩
    · rintro e ⟨-, -, -, hlt⟩
      exact absurd hlt (Nat.not_lt.mpr hroom)
  unfold wp at hwp
  cases hc : chunk sb ip w off fs with
  | ok rt =>
    rw [hc] at hwp
    obtain ⟨hr, ht⟩ := hwp
    refine ⟨rt.2, ?_, ht⟩
    rw [← hr]
  | error e =>
    rw [hc] at hwp
    exact hwp.elim

end

theorem range_map_getD {data : List UInt8} {i n : ℕ} (h : i + n ≤ data.length) :
    (List.range n).map (fun k => data.getD (i + k) 0) = (data.drop i).take n := by
  apply List.ext_getElem
  · simp
    omega
  · intro k hk hk'
    simp only [List.length_map, List.length_range] at hk
    rw [List.getElem_map, List.getElem_range, List.getElem_take, List.getElem_drop, List.getD_eq_getElem?_getD,
      List.getElem?_eq_getElem (by omega), Option.getD_some]

/-! ### Runs -/

section

variable [Fintype P] {sb : Superblock} {ip : Fin nInode} {i start : ℕ} {old : List UInt8} {s t : St P} {p : P} {w : Write}

def remaining (d : Option Write) : ℕ := d.elim 0 (fun w => w.data.length - w.i)

def length (d : Option Write) : ℕ := d.elim 0 (fun w => w.data.length)

structure Ledger (s : St P) : Prop where
  left : (bytes s.log).length + ∑ p, remaining (s.pc p) = s.asked
  total : (s.done.map (fun d => d.call.data.length)).sum + ∑ p, length (s.pc p) = s.asked
  going : ∀ p w, s.pc p = some w → w.id < s.calls ∧ w.i ≤ w.data.length ∧ bytesOf s.log w.id = w.data.take w.i
  distinct : ∀ p q w w', s.pc p = some w → s.pc q = some w' → w.id = w'.id → p = q
  past : ∀ d ∈ s.done, d.call.id < s.calls ∧ d.ret = d.call.data.length ∧ bytesOf s.log d.call.id = d.call.data ∧
    ∀ p w, s.pc p = some w → w.id ≠ d.call.id
  once : (s.done.map (fun d => d.call.id)).Nodup
  owned : ∀ c ∈ s.log, (∃ p w, s.pc p = some w ∧ w.id = c.call) ∨ ∃ d ∈ s.done, d.call.id = c.call

structure Inv (sb : Superblock) (ip : Fin nInode) (i start : ℕ) (old : List UInt8) (s : St P) : Prop where
  file : Open sb ip i s.fs
  le : start ≤ old.length
  contents : contents sb s.fs i = overwrite old start (bytes s.log)
  off : s.off = start + (bytes s.log).length
  fits : start + s.asked ≤ maxFile * bSize
  placed : Placed start s.log
  ledger : Ledger s

omit [Fintype P] in
theorem of_update {d : Option Write} {q : P} {w' : Write} (h : update s.pc p d q = some w') :
    q = p ∧ d = some w' ∨ q ≠ p ∧ s.pc q = some w' := by
  by_cases hq : q = p
  · rw [hq, update_self] at h
    exact Or.inl ⟨hq, h⟩
  · rw [update_of_ne hq] at h
    exact Or.inr ⟨hq, h⟩

namespace Ledger

omit [DecidableEq P] in
theorem other (h : Ledger s) (fs : FsState) : Ledger { s with fs := fs } :=
  ⟨h.left, h.total, h.going, h.distinct, h.past, h.once, h.owned⟩

omit [DecidableEq P] in
theorem lt_calls (h : Ledger s) {c : Chunk} (hc : c ∈ s.log) : c.call < s.calls := by
  rcases h.owned c hc with ⟨p, w, hp, hid⟩ | ⟨d, hd, hid⟩
  · rw [← hid]
    exact (h.going p w hp).1
  · rw [← hid]
    exact (h.past d hd).1

theorem call (h : Ledger s) (hp : s.pc p = none) (data : List UInt8) :
    Ledger { s with
      pc := update s.pc p (some ⟨s.calls, data, 0⟩), calls := s.calls + 1, asked := s.asked + data.length } := by
  have hsum : ∀ f : Option Write → ℕ, f none = 0 →
      ∑ q, f (update s.pc p (some ⟨s.calls, data, 0⟩) q) = ∑ q, f (s.pc q) + f (some ⟨s.calls, data, 0⟩) := by
    intro f hf
    have := sum_update_add (fun _ => f) s.pc p (some ⟨s.calls, data, 0⟩)
    rw [hp, hf, Nat.add_zero] at this
    exact this
  have hnew : bytesOf s.log s.calls = [] := by
    have hnone : s.log.filter (fun c => c.call = s.calls) = [] := by
      rw [List.filter_eq_nil_iff]
      intro c hc heq
      have := h.lt_calls hc
      rw [decide_eq_true_eq] at heq
      omega
    rw [bytesOf, hnone]
    rfl
  refine ⟨?_, ?_, ?_, ?_, ?_, h.once, ?_⟩
  · dsimp only
    rw [hsum remaining rfl, ← h.left, Nat.add_assoc]
    rfl
  · dsimp only
    rw [hsum length rfl, ← h.total, Nat.add_assoc]
    rfl
  · intro q w hq
    rcases of_update hq with ⟨-, hw⟩ | ⟨-, hw⟩
    · cases hw
      exact ⟨Nat.lt_succ_self _, Nat.zero_le _, hnew⟩
    · obtain ⟨hlt, hrest⟩ := h.going q w hw
      exact ⟨hlt.trans (Nat.lt_succ_self _), hrest⟩
  · intro q q' w w' hq hq' hid
    rcases of_update hq with ⟨hqp, hw⟩ | ⟨-, hw⟩
    · rcases of_update hq' with ⟨hqp', -⟩ | ⟨-, hw'⟩
      · rw [hqp, hqp']
      · cases hw
        exact absurd hid (h.going q' w' hw').1.ne'
    · rcases of_update hq' with ⟨-, hw'⟩ | ⟨-, hw'⟩
      · cases hw'
        exact absurd hid (h.going q w hw).1.ne
      · exact h.distinct q q' w w' hw hw' hid
  · intro d hd
    obtain ⟨hlt, hret, hbytes, hne⟩ := h.past d hd
    refine ⟨hlt.trans (Nat.lt_succ_self _), hret, hbytes, fun q w hq => ?_⟩
    rcases of_update hq with ⟨-, hw⟩ | ⟨-, hw⟩
    · cases hw
      exact hlt.ne'
    · exact hne q w hw
  · intro c hc
    rcases h.owned c hc with ⟨q, w, hq, hid⟩ | hd
    · refine Or.inl ⟨q, w, ?_, hid⟩
      have hqp : q ≠ p := by
        rintro rfl
        cases hp.symm.trans hq
      change update s.pc p _ q = some w
      rw [update_of_ne hqp]
      exact hq
    · exact Or.inr hd

theorem write {c : Chunk} {m : ℕ} (h : Ledger s) (hp : s.pc p = some w) (hm : w.i + m ≤ w.data.length) (hid : c.call = w.id)
    (hc : c.bytes = (w.data.drop w.i).take m) (hpc : t.pc = update s.pc p (some { w with i := w.i + m }))
    (hlog : t.log = s.log ++ [c]) (hdone : t.done = s.done) (hcalls : t.calls = s.calls) (hasked : t.asked = s.asked) :
    Ledger t := by
  obtain ⟨hlt, hle, hbytes⟩ := h.going p w hp
  have hlen : c.bytes.length = m := by
    rw [hc, List.length_take, List.length_drop]
    omega
  have hother : ∀ q w', q ≠ p → s.pc q = some w' → c.call ≠ w'.id := by
    intro q w' hq hw' heq
    exact hq (h.distinct q p w' w hw' hp (by rw [← heq, hid]))
  refine ⟨?_, ?_, ?_, ?_, ?_, by rw [hdone]; exact h.once, ?_⟩
  · have hsum := sum_update_add (fun _ => remaining) s.pc p (some { w with i := w.i + m })
    have hleft := h.left
    rw [hp] at hsum
    simp only [remaining, Option.elim_some] at hsum
    rw [hlog, hpc, hasked, bytes_append, List.length_append, hlen]
    change _ + ∑ q, remaining (update s.pc p (some { w with i := w.i + m }) q) = _
    simp only [remaining] at hleft ⊢
    omega
  · have hsum := sum_update_add (fun _ => length) s.pc p (some { w with i := w.i + m })
    have htotal := h.total
    rw [hp] at hsum
    simp only [length, Option.elim_some] at hsum
    rw [hdone, hpc, hasked]
    simp only [length] at htotal ⊢
    omega
  · intro q w' hq
    rw [hpc] at hq
    rw [hcalls, hlog]
    rcases of_update hq with ⟨-, hw⟩ | ⟨hqp, hw⟩
    · cases hw
      refine ⟨hlt, hm, ?_⟩
      dsimp only
      rw [← hid, bytesOf_self, hid, hbytes, hc, ← List.take_add]
    · obtain ⟨hlt', hle', hbytes'⟩ := h.going q w' hw
      exact ⟨hlt', hle', by rw [bytesOf_of_ne (hother q w' hqp hw)]; exact hbytes'⟩
  · intro q q' w₁ w₂ hq hq' hid'
    rw [hpc] at hq hq'
    rcases of_update hq with ⟨hqp, hw⟩ | ⟨hqp, hw⟩
    · rcases of_update hq' with ⟨hqp', -⟩ | ⟨hqp', hw'⟩
      · rw [hqp, hqp']
      · cases hw
        exact absurd (hid.trans hid') (hother q' w₂ hqp' hw')
    · rcases of_update hq' with ⟨-, hw'⟩ | ⟨-, hw'⟩
      · cases hw'
        exact absurd (hid.trans hid'.symm) (hother q w₁ hqp hw)
      · exact h.distinct q q' w₁ w₂ hw hw' hid'
  · intro d hd
    rw [hdone] at hd
    obtain ⟨hlt', hret, hbytes', hne⟩ := h.past d hd
    rw [hcalls, hlog, bytesOf_of_ne (by rw [hid]; exact hne p w hp)]
    refine ⟨hlt', hret, hbytes', fun q w' hq => ?_⟩
    rw [hpc] at hq
    rcases of_update hq with ⟨-, hw⟩ | ⟨-, hw⟩
    · cases hw
      exact hne p w hp
    · exact hne q w' hw
  · intro c' hc'
    rw [hlog, List.mem_append, List.mem_singleton] at hc'
    have hself : t.pc p = some { w with i := w.i + m } := by rw [hpc, update_self]
    rcases hc' with hc' | rfl
    · rcases h.owned c' hc' with ⟨q, w', hq, hid'⟩ | hd
      · by_cases hqp : q = p
        · rw [hqp, hp] at hq
          cases hq
          exact Or.inl ⟨p, _, hself, hid'⟩
        · refine Or.inl ⟨q, w', ?_, hid'⟩
          rw [hpc, update_of_ne hqp]
          exact hq
      · rw [hdone]
        exact Or.inr hd
    · exact Or.inl ⟨p, _, hself, hid.symm⟩

theorem finish (h : Ledger s) (hp : s.pc p = some w) (hi : ¬ w.i < w.data.length) : Ledger (s.finish p w) := by
  obtain ⟨hlt, hle, hbytes⟩ := h.going p w hp
  have hall : w.i = w.data.length := by omega
  rw [hall, List.take_length] at hbytes
  have hold : ∀ q w', (s.finish p w).pc q = some w' → q ≠ p ∧ s.pc q = some w' := by
    intro q w' hq
    rcases of_update hq with ⟨-, hw⟩ | hw
    · cases hw
    · exact hw
  refine ⟨?_, ?_, ?_, ?_, ?_, ?_, ?_⟩
  · have hsum := sum_update_add (fun _ => remaining) s.pc p none
    have hleft := h.left
    rw [hp] at hsum
    simp only [remaining, Option.elim_some, Option.elim_none] at hsum
    simp only [St.finish, remaining] at hleft ⊢
    omega
  · have hsum := sum_update_add (fun _ => length) s.pc p none
    have htotal := h.total
    rw [hp] at hsum
    simp only [length, Option.elim_some, Option.elim_none] at hsum
    simp only [St.finish, length, List.map_cons, List.sum_cons] at htotal ⊢
    omega
  · intro q w' hq
    exact h.going q w' (hold q w' hq).2
  · intro q q' w₁ w₂ hq hq'
    exact h.distinct q q' w₁ w₂ (hold q w₁ hq).2 (hold q' w₂ hq').2
  · intro d hd
    rcases List.mem_cons.mp hd with rfl | hd
    · refine ⟨hlt, if_pos hall, hbytes, fun q w' hq hid => ?_⟩
      exact (hold q w' hq).1 (h.distinct q p w' w (hold q w' hq).2 hp hid)
    · obtain ⟨hlt', hret, hbytes', hne⟩ := h.past d hd
      exact ⟨hlt', hret, hbytes', fun q w' hq => hne q w' (hold q w' hq).2⟩
  · change ((⟨w, _⟩ :: s.done : List Return).map (fun d => d.call.id)).Nodup
    rw [List.map_cons, List.nodup_cons]
    refine ⟨fun hmem => ?_, h.once⟩
    obtain ⟨d, hd, hid⟩ := List.mem_map.mp hmem
    exact (h.past d hd).2.2.2 p w hp hid.symm
  · intro c hc
    rcases h.owned c hc with ⟨q, w', hq, hid⟩ | ⟨d, hd, hid⟩
    · by_cases hqp : q = p
      · rw [hqp, hp] at hq
        cases hq
        exact Or.inr ⟨_, List.mem_cons_self, hid⟩
      · refine Or.inl ⟨q, w', ?_, hid⟩
        change update s.pc p none q = _
        rw [update_of_ne hqp]
        exact hq
    · exact Or.inr ⟨d, List.mem_cons_of_mem _ hd, hid⟩

omit [DecidableEq P] in
theorem remaining_le (h : Ledger s) (hp : s.pc p = some w) : (bytes s.log).length + (w.data.length - w.i) ≤ s.asked := by
  have hle : remaining (s.pc p) ≤ ∑ q, remaining (s.pc q) :=
    Finset.single_le_sum (f := fun q => remaining (s.pc q)) (fun _ _ => Nat.zero_le _) (Finset.mem_univ p)
  have hleft := h.left
  rw [hp] at hle
  simp only [remaining, Option.elim_some] at hle
  simp only [remaining] at hleft
  omega

end Ledger

namespace Inv

theorem next_chunk (h : Inv sb ip i start old s) (hp : s.pc p = some w) (hi : w.i < w.data.length)
    (hroom : lacking sb (s.fs.load sb ip) ip (touched s.off w.n1) ≤ freeBlocks sb s.fs.cache) :
    ∃ t, step sb ip s (.next p) = some t ∧ Inv sb ip i start old t ∧
      t.log = s.log ++ [⟨w.id, s.off, (w.data.drop w.i).take w.n1⟩] := by
  have hrem := h.ledger.remaining_le hp
  have hfits := h.fits
  have hoff := h.off
  have hn1 : w.n1 ≤ w.data.length - w.i ∧ w.n1 ≤ maxChunk ∧ 0 < w.n1 := by
    have hpos : 0 < maxChunk := by decide
    unfold Write.n1
    omega
  have hsmall : maxFile * bSize < 2 ^ 32 := by decide
  have hle : s.off ≤ (Fs.contents sb s.fs i).length := by
    rw [h.contents, hoff]
    exact le_length_overwrite h.le
  obtain ⟨fs, hok, hopen, hcontents⟩ := chunk_effect h.file hle (by omega) hroom
  have hbytes : (w.data.drop w.i).take (w.n1 : ℤ).toNat = (w.data.drop w.i).take w.n1 := by rw [Int.toNat_natCast]
  have hlen : ((w.data.drop w.i).take w.n1).length = w.n1 := by
    rw [List.length_take, List.length_drop]
    omega
  refine ⟨s.wrote p w w.n1 fs, ?_, ?_⟩
  · simp only [step, hp, if_pos hi, hok]
  · rw [St.wrote, if_neg (not_not.mpr rfl)]
    dsimp only
    rw [hbytes, if_pos (by omega), Int.toNat_natCast]
    refine ⟨?_, rfl⟩
    refine ⟨hopen, h.le, ?_, ?_, hfits, ?_, ?_⟩
    · dsimp only
      rw [hcontents, range_map_getD (by omega), h.contents, hoff, bytes_append]
      exact overwrite_overwrite h.le
    · dsimp only
      rw [bytes_append, List.length_append, hlen, Nat.mod_eq_of_lt (by omega), hoff, Nat.add_assoc]
    · apply h.placed.append hoff
      · dsimp only
        omega
      · dsimp only
        omega
    · exact h.ledger.write hp (m := w.n1) (by omega) rfl rfl rfl rfl rfl rfl rfl

theorem of_step {a : Action P} (h : Inv sb ip i start old s) (hc : Allowed sb ip i start s a) (ht : step sb ip s a = some t) :
    Inv sb ip i start old t := by
  cases a with
  | call p data =>
    cases hp : s.pc p with
    | none =>
      simp only [step, hp] at ht
      cases ht
      exact ⟨h.file, h.le, h.contents, h.off, by rw [← Nat.add_assoc]; exact hc, h.placed, h.ledger.call hp data⟩
    | some w =>
      simp only [step, hp] at ht
      cases ht
  | next p =>
    cases hp : s.pc p with
    | none =>
      simp only [step, hp] at ht
      cases ht
    | some w =>
      by_cases hi : w.i < w.data.length
      · obtain ⟨t', ht', hinv, -⟩ := h.next_chunk hp hi (hc w hp)
        rw [ht'] at ht
        cases ht
        exact hinv
      · simp only [step, hp, if_neg hi] at ht
        cases ht
        exact ⟨h.file, h.le, h.contents, h.off, h.fits, h.placed, h.ledger.finish hp hi⟩
  | other fs =>
    cases ht
    exact ⟨hc.1, h.le, hc.2.trans h.contents, h.off, h.fits, h.placed, h.ledger.other fs⟩

omit [DecidableEq P] in
theorem of_begin {fs : FsState} (h : Open sb ip i fs) (hle : start ≤ (Fs.contents sb fs i).length)
    (hmax : start ≤ maxFile * bSize) : Inv sb ip i start (Fs.contents sb fs i) (begin P fs start) := by
  refine ⟨h, hle, (overwrite_nil _ _).symm, rfl, hmax, trivial, ?_⟩
  refine ⟨?_, ?_, ?_, ?_, ?_, List.nodup_nil, ?_⟩
  · change 0 + ∑ _p : P, 0 = 0
    rw [Finset.sum_const_zero, Nat.add_zero]
  · change 0 + ∑ _p : P, 0 = 0
    rw [Finset.sum_const_zero, Nat.add_zero]
  · intro p w hp
    cases hp
  · intro p q w w' hp
    cases hp
  · intro d hd
    cases hd
  · intro c hc
    cases hc

end Inv

end

theorem created_open : Open mkfsSuperblock firstSlot 1 created :=
  ⟨(mount_inv blankImage_owns blankImage_full).of_run created_run, by decide +kernel, by decide +kernel, by decide +kernel⟩

def oneCall : St Bool :=
  (step mkfsSuperblock firstSlot (begin Bool created 3) (.call true [9, 8])).getD (begin Bool created 3)

theorem step_oneCall : step mkfsSuperblock firstSlot (begin Bool created 3) (.call true [9, 8]) = some oneCall := rfl

theorem oneCall_eq : oneCall.pc true = some ⟨0, [9, 8], 0⟩ ∧ oneCall.log = [] := ⟨rfl, rfl⟩

theorem oneCall_room : lacking mkfsSuperblock (oneCall.fs.load mkfsSuperblock firstSlot) firstSlot
    (touched oneCall.off (Write.mk 0 [9, 8] 0).n1) ≤ freeBlocks mkfsSuperblock oneCall.fs.cache := by
  have hzero : lacking mkfsSuperblock (oneCall.fs.load mkfsSuperblock firstSlot) firstSlot
      (touched oneCall.off (Write.mk 0 [9, 8] 0).n1) = 0 := by decide +kernel
  rw [hzero]
  exact Nat.zero_le _

attribute [irreducible] oneCall

end Xv6.Fs.Filewrite
