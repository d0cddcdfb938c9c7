import Xv6.Grep.Match
import Xv6.Strings.Memmove

namespace Xv6.Grep

open Strings (Memory)
open Strings.User (memmove)
open Function (update update_of_ne update_self)

def bufSize : ℕ := 1024

def bytes (mem : Memory) (p : ℕ) : ℕ → List UInt8
  | 0 => []
  | n + 1 => mem p :: bytes mem (p + 1) n

def store (mem : Memory) (p : ℕ) : List UInt8 → Memory
  | [] => mem
  | b :: l => update (store mem (p + 1) l) p b

def strchr (mem : Memory) (c : UInt8) : ℕ → ℕ → Option ℕ
  | 0, _ => none
  | fuel + 1, s => if mem s = 0 then none else if mem s = c then some s else strchr mem c fuel (s + 1)

def cstring (mem : Memory) : ℕ → ℕ → List UInt8
  | 0, _ => []
  | fuel + 1, s => if mem s = 0 then [] else mem s :: cstring mem fuel (s + 1)

def lineLoop (pattern : List UInt8) : ℕ → Memory → ℕ → List UInt8 × Memory × ℕ
  | 0, mem, p => ([], mem, p)
  | fuel + 1, mem, p =>
    match strchr mem 10 bufSize p with
    | none => ([], mem, p)
    | some q =>
      let cut := update mem q 0
      if matchText pattern (cstring cut bufSize p) then
        let mem := update cut q 10
        let r := lineLoop pattern fuel mem (q + 1)
        (bytes mem p (q + 1 - p) ++ r.1, r.2)
      else lineLoop pattern fuel cut (q + 1)

structure St where
  buf : Memory
  m : ℕ
  out : List UInt8
  rest : List UInt8

def turn (pattern : List UInt8) (n : ℕ) (s : St) : St :=
  let m := s.m + n
  let buf := update (store s.buf s.m (s.rest.take n)) m 0
  let r := lineLoop pattern bufSize buf 0
  { buf := if m > 0 then memmove r.2.1 0 r.2.2 (m - r.2.2 : ℕ) else r.2.1
    m := if m > 0 then m - r.2.2 else m
    out := s.out ++ r.1
    rest := s.rest.drop n }

def readLen (want asked avail : ℕ) : ℕ := if min asked avail = 0 then 0 else max 1 (min want (min asked avail))

def grepLoop (pattern : List UInt8) (want : ℕ → ℕ) : ℕ → ℕ → St → Option St
  | 0, _, _ => none
  | fuel + 1, i, s =>
    let n := readLen (want i) (bufSize - s.m - 1) s.rest.length
    if n = 0 then some s else grepLoop pattern want fuel (i + 1) (turn pattern n s)

def grep (pattern : List UInt8) (want : ℕ → ℕ) (buf : Memory) (stream : List UInt8) : Option St :=
  grepLoop pattern want (stream.length + 1) 0 ⟨buf, 0, [], stream⟩

/-! ### Bytes of the buffer -/

variable {mem mem' : Memory} {p n : ℕ} {l t : List UInt8}

theorem length_bytes (mem : Memory) (p n : ℕ) : (bytes mem p n).length = n := by
  induction n generalizing p with
  | zero => rfl
  | succ n ih => rw [bytes, List.length_cons, ih]

theorem bytes_congr (h : ∀ a, p ≤ a → a < p + n → mem' a = mem a) : bytes mem' p n = bytes mem p n := by
  induction n generalizing p with
  | zero => rfl
  | succ n ih =>
    rw [bytes, bytes, h p (by omega) (by omega), ih (fun a ha ha' => h a (by omega) (by omega))]

theorem bytes_add (mem : Memory) (p m n : ℕ) : bytes mem p (m + n) = bytes mem p m ++ bytes mem (p + m) n := by
  induction m generalizing p with
  | zero =>
    rw [Nat.zero_add]
    rfl
  | succ m ih => rw [Nat.add_right_comm, bytes, ih, bytes, List.cons_append, Nat.add_assoc, Nat.add_comm 1]

theorem bytes_append {x : List UInt8} (h : bytes mem p (x ++ l).length = x ++ l) :
    bytes mem p x.length = x ∧ bytes mem (p + x.length) l.length = l := by
  rw [List.length_append, bytes_add] at h
  exact List.append_inj h (length_bytes _ _ _)

theorem bytes_cons {b : UInt8} (h : bytes mem p (b :: l).length = b :: l) : mem p = b ∧ bytes mem (p + 1) l.length = l := by
  rw [List.length_cons, bytes] at h
  exact List.cons.inj h

theorem store_of_lt {a : ℕ} (h : a < p) : store mem p l a = mem a := by
  induction l generalizing p with
  | nil => rfl
  | cons b l ih => rw [store, update_of_ne (by omega), ih (by omega)]

theorem bytes_store (mem : Memory) (p : ℕ) (l : List UInt8) : bytes (store mem p l) p l.length = l := by
  induction l generalizing p with
  | nil => rfl
  | cons b l ih =>
    rw [List.length_cons, bytes, store, update_self]
    congr 1
    rw [bytes_congr (fun a ha _ => update_of_ne (by omega) _ _)]
    exact ih (p + 1)

theorem bytes_memmove (mem : Memory) (d s n k : ℕ) : bytes (memmove mem d s (n : ℕ)) (d + k) (n - k) = bytes mem (s + k) (n - k) := by
  generalize hj : n - k = j
  induction j generalizing k with
  | zero => rfl
  | succ j ih =>
    rw [bytes, bytes, Strings.User.memmove_apply, Int.toNat_natCast, if_pos (by omega), Nat.add_sub_cancel_left,
      Nat.add_assoc, Nat.add_assoc, ih (k + 1) (by omega)]

/-! ### Strings in the buffer -/

theorem strchr_newline {fuel : ℕ} (hl : bytes mem p (l ++ 10 :: t).length = l ++ 10 :: t) (hnl : 10 ∉ l) (h0 : 0 ∉ l)
    (hfuel : l.length < fuel) : strchr mem 10 fuel p = some (p + l.length) := by
  induction l generalizing p fuel with
  | nil =>
    obtain ⟨k, rfl⟩ := Nat.exists_eq_succ_of_ne_zero (Nat.ne_of_gt hfuel)
    have hp := (bytes_cons hl).1
    rw [strchr, if_neg (by rw [hp]; decide), if_pos hp]
    rfl
  | cons b l ih =>
    obtain ⟨k, rfl⟩ := Nat.exists_eq_succ_of_ne_zero (Nat.ne_of_gt (Nat.zero_lt_of_lt hfuel))
    obtain ⟨hp, hrest⟩ := bytes_cons hl
    rw [List.mem_cons, not_or] at hnl h0
    rw [strchr, if_neg (by rw [hp]; exact Ne.symm h0.1), if_neg (by rw [hp]; exact Ne.symm hnl.1),
      ih hrest hnl.2 h0.2 (Nat.lt_of_succ_lt_succ hfuel), List.length_cons, Nat.add_right_comm, Nat.add_assoc]

theorem strchr_none {fuel : ℕ} (hl : bytes mem p l.length = l) (hend : mem (p + l.length) = 0) (hnl : 10 ∉ l) :
    strchr mem 10 fuel p = none := by
  induction l generalizing p fuel with
  | nil =>
    cases fuel with
    | zero => rfl
    | succ k => exact if_pos hend
  | cons b l ih =>
    cases fuel with
    | zero => rfl
    | succ k =>
      obtain ⟨hp, hrest⟩ := bytes_cons hl
      rw [List.mem_cons, not_or] at hnl
      have hend' : mem (p + 1 + l.length) = 0 := by
        rw [List.length_cons, ← Nat.add_assoc, Nat.add_right_comm] at hend
        exact hend
      rw [strchr, if_neg (c := mem p = 10) (by rw [hp]; exact Ne.symm hnl.1), ih hrest hend' hnl.2, ite_self]

theorem cstring_eq {fuel : ℕ} (hl : bytes mem p l.length = l) (hend : mem (p + l.length) = 0) (h0 : 0 ∉ l)
    (hfuel : l.length < fuel) : cstring mem fuel p = l := by
  induction l generalizing p fuel with
  | nil =>
    obtain ⟨k, rfl⟩ := Nat.exists_eq_succ_of_ne_zero (Nat.ne_of_gt hfuel)
    exact if_pos hend
  | cons b l ih =>
    obtain ⟨k, rfl⟩ := Nat.exists_eq_succ_of_ne_zero (Nat.ne_of_gt (Nat.zero_lt_of_lt hfuel))
    obtain ⟨hp, hrest⟩ := bytes_cons hl
    rw [List.mem_cons, not_or] at h0
    have hend' : mem (p + 1 + l.length) = 0 := by
      rw [List.length_cons, ← Nat.add_assoc, Nat.add_right_comm] at hend
      exact hend
    rw [cstring, if_neg (by rw [hp]; exact Ne.symm h0.1), hp, ih hrest hend' h0.2 (Nat.lt_of_succ_lt_succ hfuel)]

/-! ### Lines -/

def flat (ls : List (List UInt8)) : List UInt8 := ls.flatMap (fun l => l ++ [10])

def selected (pattern : List UInt8) (ls : List (List UInt8)) : List UInt8 := flat (ls.filter (matchText pattern))

def IsLine (l : List UInt8) : Prop := 10 ∉ l ∧ 0 ∉ l

variable {pattern : List UInt8} {ls : List (List UInt8)}

theorem flat_cons (l : List UInt8) (ls : List (List UInt8)) : flat (l :: ls) = l ++ 10 :: flat ls := by
  rw [flat, List.flatMap_cons, List.append_assoc]
  rfl

theorem flat_append (ls ls' : List (List UInt8)) : flat (ls ++ ls') = flat ls ++ flat ls' := List.flatMap_append

theorem selected_cons (pattern l : List UInt8) (ls : List (List UInt8)) : selected pattern (l :: ls) =
    (if matchText pattern l then l ++ [10] else []) ++ selected pattern ls := by
  unfold selected
  rw [List.filter_cons]
  split_ifs
  · rw [flat_cons, List.append_assoc]
    rfl
  · rfl

theorem selected_append (pattern : List UInt8) (ls ls' : List (List UInt8)) :
    selected pattern (ls ++ ls') = selected pattern ls ++ selected pattern ls' := by
  rw [selected, List.filter_append, flat_append]
  rfl

theorem length_le_flat (ls : List (List UInt8)) : ls.length ≤ (flat ls).length := by
  induction ls with
  | nil => exact Nat.zero_le _
  | cons l ls ih =>
    rw [flat_cons, List.length_append, List.length_cons, List.length_cons]
    omega

theorem split_flat {x rest : List UInt8} (h : x ++ rest = flat ls) : ∃ ls₁ ls₂ t, ls = ls₁ ++ ls₂ ∧ x = flat ls₁ ++ t ∧
    t ++ rest = flat ls₂ ∧ (t = [] ∨ ∃ l ∈ ls₂, t <+: l) := by
  induction ls generalizing x with
  | nil =>
    have hx := (List.append_eq_nil_iff.mp h).1
    exact ⟨[], [], [], rfl, hx, by rw [← h, hx], .inl rfl⟩
  | cons l ls ih =>
    rw [flat_cons] at h
    rcases List.append_eq_append_iff.mp h with ⟨y, rfl, hy⟩ | ⟨y, rfl, hy⟩
    · refine ⟨[], (x ++ y) :: ls, x, rfl, rfl, ?_, .inr ⟨x ++ y, List.mem_cons_self, List.prefix_append x y⟩⟩
      rw [hy, flat_cons, List.append_assoc]
    · cases y with
      | nil =>
        refine ⟨[], l :: ls, l, rfl, List.append_nil l, ?_, .inr ⟨l, List.mem_cons_self, List.prefix_rfl⟩⟩
        rw [flat_cons, hy]
        rfl
      | cons b y =>
        rw [List.cons_append] at hy
        obtain ⟨hb, hy'⟩ := List.cons.inj hy
        subst hb
        obtain ⟨ls₁, ls₂, t, rfl, rfl, ht, hpre⟩ := ih hy'.symm
        refine ⟨l :: ls₁, ls₂, t, rfl, ?_, ht, hpre⟩
        rw [flat_cons, List.append_assoc]
        rfl

theorem lineLoop_eq (pattern : List UInt8) {fuel : ℕ} (hls : ∀ l ∈ ls, IsLine l) (ht : 10 ∉ t)
    (hx : bytes mem p (flat ls ++ t).length = flat ls ++ t) (hend : mem (p + (flat ls ++ t).length) = 0)
    (hfuel : ls.length < fuel) (hroom : (flat ls).length < bufSize) :
    ∃ mem', lineLoop pattern fuel mem p = (selected pattern ls, mem', p + (flat ls).length) ∧
      ∀ a, p + (flat ls).length ≤ a → mem' a = mem a := by
  induction ls generalizing mem p fuel with
  | nil =>
    obtain ⟨k, rfl⟩ := Nat.exists_eq_succ_of_ne_zero (Nat.ne_of_gt hfuel)
    refine ⟨mem, ?_, fun a _ => rfl⟩
    rw [lineLoop, strchr_none hx hend ht]
    rfl
  | cons l ls ih =>
    obtain ⟨k, rfl⟩ := Nat.exists_eq_succ_of_ne_zero (Nat.ne_of_gt (Nat.zero_lt_of_lt hfuel))
    obtain ⟨hnl, h0⟩ := hls l List.mem_cons_self
    have hlen : (flat (l :: ls)).length = l.length + 1 + (flat ls).length := by
      rw [flat_cons, List.length_append, List.length_cons]
      omega
    have hsplit : flat (l :: ls) ++ t = l ++ 10 :: (flat ls ++ t) := by
      rw [flat_cons, List.append_assoc, List.cons_append]
    rw [hsplit] at hx hend
    obtain ⟨hline, htail⟩ := bytes_append hx
    obtain ⟨hq, hrest⟩ := bytes_cons htail
    have hend' : mem (p + l.length + 1 + (flat ls ++ t).length) = 0 := by
      rw [List.length_append, List.length_cons, ← Nat.add_assoc, ← Nat.add_assoc, Nat.add_right_comm] at hend
      exact hend
    -- whatever has been written at `q`, the bytes behind it are those of `mem`
    have hgo (mem₁ : Memory) (hmem₁ : ∀ a, a ≠ p + l.length → mem₁ a = mem a) :
        ∃ mem', lineLoop pattern k mem₁ (p + l.length + 1) =
          (selected pattern ls, mem', p + l.length + 1 + (flat ls).length) ∧
          ∀ a, p + l.length + 1 + (flat ls).length ≤ a → mem' a = mem a := by
      have hbytes : bytes mem₁ (p + l.length + 1) (flat ls ++ t).length = flat ls ++ t := by
        rw [bytes_congr (fun a ha _ => hmem₁ a (by omega))]
        exact hrest
      obtain ⟨mem', hloop, hmem'⟩ := ih (fun l' hl' => hls l' (List.mem_cons_of_mem _ hl')) hbytes
        (by rw [hmem₁ _ (by omega), hend']) (Nat.lt_of_succ_lt_succ hfuel) (by omega)
      exact ⟨mem', hloop, fun a ha => (hmem' a ha).trans (hmem₁ a (by omega))⟩
    have hcut : cstring (update mem (p + l.length) 0) bufSize p = l := by
      apply cstring_eq _ (update_self _ _ _) h0 (by omega)
      rw [bytes_congr (fun a _ ha => update_of_ne (by omega) _ _)]
      exact hline
    rw [lineLoop, strchr_newline hx hnl h0 (by omega)]
    dsimp only
    rw [hcut, hlen, ← Nat.add_assoc, ← Nat.add_assoc, selected_cons]
    by_cases hm : matchText pattern l = true
    · obtain ⟨mem', hloop, hmem'⟩ := hgo (update (update mem (p + l.length) 0) (p + l.length) 10)
        (fun a ha => by rw [update_of_ne ha, update_of_ne ha])
      refine ⟨mem', ?_, hmem'⟩
      have hwrite : bytes (update (update mem (p + l.length) 0) (p + l.length) 10) p
          (p + l.length + 1 - p) = l ++ [10] := by
        have hsame : bytes (update (update mem (p + l.length) 0) (p + l.length) 10) p l.length =
            bytes mem p l.length := by
          apply bytes_congr
          intro a _ ha
          rw [update_of_ne (by omega), update_of_ne (by omega)]
        rw [show p + l.length + 1 - p = l.length + 1 by omega, bytes_add, hsame, hline, bytes, update_self]
        rfl
      rw [if_pos hm, if_pos hm, hloop, hwrite]
    · obtain ⟨mem', hloop, hmem'⟩ := hgo (update mem (p + l.length) 0) (fun a ha => update_of_ne ha _ _)
      refine ⟨mem', ?_, hmem'⟩
      rw [if_neg hm, if_neg hm, hloop]
      rfl

/-! ### The stream -/

structure Carries (ls : List (List UInt8)) (s : St) (t : List UInt8) : Prop where
  bytes : bytes s.buf 0 s.m = t
  rest : t ++ s.rest = flat ls
  line : t = [] ∨ ∃ l ∈ ls, t <+: l

theorem Carries.length {s : St} (h : Carries ls s t) : t.length = s.m := by
  rw [← h.bytes, length_bytes]

theorem Carries.turn {s : St} (h : Carries ls s t) (pattern : List UInt8) (hls : ∀ l ∈ ls, IsLine l) (hn : 0 < n) (hrest : n ≤ s.rest.length)
    (hroom : s.m + n < bufSize) : ∃ ls₁ ls₂ t', ls = ls₁ ++ ls₂ ∧
      (turn pattern n s).out = s.out ++ selected pattern ls₁ ∧ Carries ls₂ (turn pattern n s) t' := by
  have hpiece : t ++ s.rest.take n ++ s.rest.drop n = flat ls := by
    rw [List.append_assoc, List.take_append_drop, h.rest]
  obtain ⟨ls₁, ls₂, t', rfl, hx, ht', hline⟩ := split_flat hpiece
  have hlen : (flat ls₁ ++ t').length = s.m + n := by
    rw [← hx, List.length_append, h.length, List.length_take, Nat.min_eq_left hrest]
  have hnl : 10 ∉ t' := by
    intro hmem
    rcases hline with rfl | ⟨l, hl, hpre⟩
    · exact List.not_mem_nil hmem
    · exact (hls l (List.mem_append_right _ hl)).1 (hpre.subset hmem)
  have hbuf : Grep.bytes (update (store s.buf s.m (s.rest.take n)) (s.m + n) 0) 0 (flat ls₁ ++ t').length =
      flat ls₁ ++ t' := by
    have hread := bytes_store s.buf s.m (s.rest.take n)
    rw [List.length_take, Nat.min_eq_left hrest] at hread
    rw [hlen, bytes_congr (fun a _ ha => update_of_ne (by omega) _ _), bytes_add, Nat.zero_add, hread,
      bytes_congr (fun a _ ha => store_of_lt (by omega)), h.bytes, hx]
  have hsum : (flat ls₁ ++ t').length = (flat ls₁).length + t'.length := List.length_append
  have hcount : ls₁.length < bufSize := by
    have := length_le_flat ls₁
    omega
  obtain ⟨mem', hloop, hmem'⟩ := lineLoop_eq pattern (fun l hl => hls l (List.mem_append_left _ hl)) hnl hbuf
    (by rw [Nat.zero_add, hlen, update_self]) hcount (by omega)
  rw [Nat.zero_add] at hloop hmem'
  refine ⟨ls₁, ls₂, t', rfl, ?_, ?_, ht', hline⟩
  · rw [Grep.turn, hloop]
  · have hm : s.m + n - (flat ls₁).length = t'.length := by omega
    rw [Grep.turn, hloop]
    dsimp only
    rw [if_pos (by omega), if_pos (by omega), hm]
    have hmove := bytes_memmove mem' 0 (flat ls₁).length t'.length 0
    rw [Nat.add_zero, Nat.add_zero, Nat.sub_zero] at hmove
    rw [hmove, bytes_congr (fun a ha _ => hmem' a ha)]
    have htail := (bytes_append hbuf).2
    rw [Nat.zero_add] at htail
    exact htail

theorem readLen_le (want asked avail : ℕ) : readLen want asked avail ≤ asked ∧ readLen want asked avail ≤ avail := by
  unfold readLen
  split_ifs <;> omega

theorem readLen_eq_zero {want asked avail : ℕ} (h : readLen want asked avail = 0) : asked = 0 ∨ avail = 0 := by
  unfold readLen at h
  split_ifs at h <;> omega

theorem Carries.room {s : St} (h : Carries ls s t) (hshort : ∀ l ∈ ls, l.length ≤ bufSize - 2) : s.m ≤ bufSize - 2 := by
  rw [← h.length]
  rcases h.line with rfl | ⟨l, hl, hpre⟩
  · exact Nat.zero_le _
  · exact hpre.length_le.trans (hshort l hl)

theorem Carries.nil {s : St} (h : Carries ls s t) (hls : ∀ l ∈ ls, IsLine l) (hrest : s.rest = []) : ls = [] := by
  have hflat := h.rest
  rw [hrest, List.append_nil] at hflat
  cases ls with
  | nil => rfl
  | cons l ls =>
    have hnl : 10 ∈ t := by
      rw [hflat, flat_cons]
      exact List.mem_append_right _ List.mem_cons_self
    rcases h.line with rfl | ⟨l', hl', hpre⟩
    · exact absurd hnl List.not_mem_nil
    · exact absurd (hpre.subset hnl) (hls l' hl').1

theorem grepLoop_eq {want : ℕ → ℕ} {fuel i : ℕ} {s : St} (h : Carries ls s t) (hls : ∀ l ∈ ls, IsLine l)
    (hshort : ∀ l ∈ ls, l.length ≤ bufSize - 2) (hfuel : s.rest.length < fuel) :
    ∃ s', grepLoop pattern want fuel i s = some s' ∧ s'.out = s.out ++ selected pattern ls ∧ s'.rest = [] := by
  induction fuel generalizing i s ls t with
  | zero => exact absurd hfuel (Nat.not_lt_zero _)
  | succ k ih =>
    have hroom := h.room hshort
    have hle := readLen_le (want i) (bufSize - s.m - 1) s.rest.length
    rw [grepLoop]
    by_cases hn : readLen (want i) (bufSize - s.m - 1) s.rest.length = 0
    · have hrest : s.rest = [] := by
        have hsize : bufSize = 1024 := rfl
        exact List.eq_nil_of_length_eq_zero ((readLen_eq_zero hn).resolve_left (by omega))
      refine ⟨s, if_pos hn, ?_, hrest⟩
      rw [h.nil hls hrest]
      exact (List.append_nil _).symm
    · have hsize : bufSize = 1024 := rfl
      obtain ⟨ls₁, ls₂, t', rfl, hout, hcarry⟩ := h.turn pattern hls (Nat.pos_of_ne_zero hn) hle.2 (by omega)
      have hdrop : (turn pattern (readLen (want i) (bufSize - s.m - 1) s.rest.length) s).rest.length < k := by
        rw [turn, List.length_drop]
        omega
      obtain ⟨s', hs', hout', hrest'⟩ := ih (i := i + 1) hcarry (fun l hl => hls l (List.mem_append_right _ hl))
        (fun l hl => hshort l (List.mem_append_right _ hl)) hdrop
      refine ⟨s', ?_, ?_, hrest'⟩
      · rw [if_neg hn, hs']
      · rw [hout', hout, List.append_assoc, ← selected_append]

theorem grepLoop_full {want : ℕ → ℕ} {fuel i : ℕ} {s : St} (h : s.m = bufSize - 1) :
    grepLoop pattern want (fuel + 1) i s = some s := by
  have hn : readLen (want i) (bufSize - s.m - 1) s.rest.length = 0 := by
    rw [h]
    rfl
  exact if_pos hn

theorem turn_full (s : St) (pattern : List UInt8) (hm : s.m = 0) (hline : IsLine l) (hlen : l.length = bufSize - 1)
    (hrest : s.rest = l ++ t) : (turn pattern (bufSize - 1) s).m = bufSize - 1 ∧
      (turn pattern (bufSize - 1) s).out = s.out ∧ (turn pattern (bufSize - 1) s).rest = t := by
  have htake : s.rest.take (bufSize - 1) = l := by
    rw [hrest, ← hlen, List.take_left]
  have hbuf : bytes (update (store s.buf 0 l) (bufSize - 1) 0) 0 (flat [] ++ l).length = flat [] ++ l := by
    change bytes _ 0 l.length = l
    rw [bytes_congr (fun a _ ha => update_of_ne (by omega) _ _), bytes_store]
  obtain ⟨mem', hloop, -⟩ := lineLoop_eq pattern (List.forall_mem_nil IsLine) hline.1 hbuf
    (by change update _ _ _ (0 + l.length) = 0; rw [Nat.zero_add, hlen, update_self])
    (show 0 < bufSize by decide) (by decide)
  unfold turn
  dsimp only
  rw [htake, hm, Nat.zero_add, hloop]
  refine ⟨rfl, List.append_nil _, ?_⟩
  rw [hrest, ← hlen, List.drop_left]

end Xv6.Grep
