import Xv6.Console.Intr

namespace Xv6.Console

open Lib Lib.Transition
open Function (update update_of_ne update_self)

def Cons.entries (c : Cons) (i j : ℕ) : List UInt8 :=
  (List.range (ahead (2 ^ 32) i j)).map (fun t => c.buf (slot inputBuf (i + t)))

def Cons.unread (c : Cons) : List UInt8 := c.entries c.r c.w

structure Call where
  id : ℕ
  n : ℕ
  target : ℕ
  out : List UInt8

inductive Pc
  | idle
  | enter (c : Call)
  | loop (c : Call)
  | asleep (c : Call)

inductive Stop
  | full
  | line
  | eof
  | saved
  | killed
  deriving DecidableEq

structure Done where
  call : Call
  value : ℤ
  stop : Stop

structure St (P : Type) where
  cons : Cons
  lock : Option P
  pc : P → Pc
  killed : P → Bool
  calls : ℕ
  committed : List UInt8
  taken : List (ℕ × UInt8)
  done : List Done

inductive Action (P : Type)
  | intr (b : UInt8)
  | call (p : P) (n : ℤ)
  | kill (p : P)
  | next (p : P)

def Pc.call : Pc → Option Call
  | .idle => none
  | .enter c | .loop c | .asleep c => some c

def Pc.wake : Pc → Pc
  | .asleep c => .enter c
  | .idle => .idle
  | .enter c => .enter c
  | .loop c => .loop c

variable {P : Type} [DecidableEq P]

namespace St

def finish (s : St P) (p : P) (c : Call) (value : ℤ) (stop : Stop) : St P :=
  { s with lock := none, pc := update s.pc p .idle, done := ⟨c, value, stop⟩ :: s.done }

def take (s : St P) (i : ℕ) : St P :=
  { s with cons := s.cons.advance, taken := s.taken ++ [(i, s.cons.front)] }

def loop (s : St P) (p : P) (c : Call) : St P :=
  if c.n = 0 then s.finish p c (c.target - c.n) .full
  else if s.cons.r = s.cons.w then
    if s.killed p then s.finish p c (-1) .killed
    else { s with lock := none, pc := update s.pc p (.asleep c) }
  else if s.cons.front = ctrlD then
    if c.n < c.target then { s with cons := s.cons.advance.retreat }.finish p c (c.target - c.n) .saved
    else (s.take c.id).finish p c (c.target - c.n) .eof
  else
    let c' : Call := { c with n := c.n - 1, out := c.out ++ [s.cons.front] }
    if s.cons.front = newline then (s.take c.id).finish p c' (c'.target - c'.n) .line
    else { s.take c.id with pc := update s.pc p (.loop c') }

end St

def step (s : St P) : Action P → Option (St P)
  | .intr b =>
    if s.lock = none then
      let r := s.cons.consoleintr b
      some { s with
        cons := r.1
        committed := s.committed ++ r.1.entries s.cons.w r.1.w
        pc := fun p => if r.2 then (s.pc p).wake else s.pc p }
    else none
  | .call p n => match s.pc p with
    | .idle => some { s with
        pc := update s.pc p (.enter ⟨s.calls, n.toNat, n.toNat, []⟩)
        calls := s.calls + 1 }
    | _ => none
  | .kill p => some { s with
      killed := update s.killed p true
      pc := update s.pc p (s.pc p).wake }
  | .next p => match s.pc p with
    | .enter c => if s.lock = none then some { s with lock := some p, pc := update s.pc p (.loop c) } else none
    | .loop c => some (s.loop p c)
    | _ => none

def boot (P : Type) : St P where
  cons := ⟨fun _ => 0, 0, 0, 0⟩
  lock := none
  pc _ := .idle
  killed _ := false
  calls := 0
  committed := []
  taken := []
  done := []

/-! ### The calls -/

def bytesOf (taken : List (ℕ × UInt8)) (i : ℕ) : List UInt8 := (taken.filter (fun e => e.1 = i)).map Prod.snd

theorem bytesOf_self (taken : List (ℕ × UInt8)) (i : ℕ) (b : UInt8) :
    bytesOf (taken ++ [(i, b)]) i = bytesOf taken i ++ [b] := by
  simp [bytesOf]

theorem bytesOf_of_ne {taken : List (ℕ × UInt8)} {i j : ℕ} {b : UInt8} (h : i ≠ j) :
    bytesOf (taken ++ [(j, b)]) i = bytesOf taken i := by
  simp [bytesOf, Ne.symm h]

structure Ended (taken : List (ℕ × UInt8)) (d : Done) : Prop where
  plain : ctrlD ∉ d.call.out
  lines : newline ∉ d.call.out.dropLast
  le : d.call.out.length ≤ d.call.target
  bytes : bytesOf taken d.call.id = if d.stop = .eof then [ctrlD] else d.call.out
  value : d.value = if d.stop = .killed then -1 else (d.call.out.length : ℤ)
  full : d.stop = .full → d.call.out.length = d.call.target
  line : d.stop = .line → d.call.out.getLast? = some newline
  eof : d.stop = .eof → d.call.out = []
  saved : d.stop = .saved → d.call.out ≠ []

structure Going (taken : List (ℕ × UInt8)) (calls : ℕ) (c : Call) : Prop where
  count : c.n + c.out.length = c.target
  lt : c.id < calls
  plain : ctrlD ∉ c.out
  open_ : newline ∉ c.out
  bytes : bytesOf taken c.id = c.out

structure Ledger (s : St P) : Prop where
  going : ∀ p c, (s.pc p).call = some c → Going s.taken s.calls c
  distinct : ∀ p q c c', (s.pc p).call = some c → (s.pc q).call = some c' → c.id = c'.id → p = q
  past : ∀ d ∈ s.done, d.call.id < s.calls ∧ Ended s.taken d ∧ ∀ p c, (s.pc p).call = some c → c.id ≠ d.call.id
  once : (s.done.map (fun d => d.call.id)).Nodup
  fresh : ∀ e ∈ s.taken, e.1 < s.calls
  eofs : ∀ i, (i, ctrlD) ∈ s.taken → ∃ d ∈ s.done, d.call.id = i ∧ d.stop = .eof

theorem Ended.more {taken : List (ℕ × UInt8)} {d : Done} {i : ℕ} {b : UInt8} (h : Ended taken d) (hi : d.call.id ≠ i) :
    Ended (taken ++ [(i, b)]) d :=
  ⟨h.plain, h.lines, h.le, by rw [bytesOf_of_ne hi]; exact h.bytes, h.value, h.full, h.line, h.eof, h.saved⟩

theorem Going.more {taken : List (ℕ × UInt8)} {calls i : ℕ} {b : UInt8} {c : Call} (h : Going taken calls c) (hi : c.id ≠ i) :
    Going (taken ++ [(i, b)]) calls c :=
  ⟨h.count, h.lt, h.plain, h.open_, by rw [bytesOf_of_ne hi]; exact h.bytes⟩

namespace Ledger

variable {s t : St P} {p : P} {c c' : Call} {b : UInt8} {d : Done}

omit [DecidableEq P] in
theorem same (h : Ledger s) (hpc : ∀ p, (t.pc p).call = (s.pc p).call) (htaken : t.taken = s.taken) (hdone : t.done = s.done)
    (hcalls : t.calls = s.calls) : Ledger t := by
  refine ⟨?_, ?_, ?_, by rw [hdone]; exact h.once, by rw [htaken, hcalls]; exact h.fresh,
    by rw [htaken, hdone]; exact h.eofs⟩
  · intro p c hc
    rw [hpc] at hc
    rw [htaken, hcalls]
    exact h.going p c hc
  · intro p q c c' hc hc'
    rw [hpc] at hc hc'
    exact h.distinct p q c c' hc hc'
  · intro d hd
    rw [hdone] at hd
    rw [hcalls, htaken]
    refine ⟨(h.past d hd).1, (h.past d hd).2.1, fun p c hc => ?_⟩
    rw [hpc] at hc
    exact (h.past d hd).2.2 p c hc

theorem call_update {d : Pc} {q : P} (hq : (update s.pc p d q).call = some c) :
    q = p ∧ d.call = some c ∨ q ≠ p ∧ (s.pc q).call = some c := by
  by_cases hqp : q = p
  · rw [hqp, update_self] at hq
    exact Or.inl ⟨hqp, hq⟩
  · rw [update_of_ne hqp] at hq
    exact Or.inr ⟨hqp, hq⟩

theorem begin (h : Ledger s) (n : ℕ) :
    Ledger { s with pc := update s.pc p (.enter ⟨s.calls, n, n, []⟩), calls := s.calls + 1 } := by
  have hnone : bytesOf s.taken s.calls = [] := by
    unfold bytesOf
    rw [List.map_eq_nil_iff, List.filter_eq_nil_iff]
    intro e he heq
    have := h.fresh e he
    simp only [decide_eq_true_eq] at heq
    omega
  refine ⟨?_, ?_, ?_, h.once, fun e he => (h.fresh e he).trans (Nat.lt_succ_self _), h.eofs⟩
  · intro q c hq
    rcases call_update hq with ⟨-, hc⟩ | ⟨-, hc⟩
    · cases hc
      exact ⟨rfl, Nat.lt_succ_self _, List.not_mem_nil, List.not_mem_nil, hnone⟩
    · have hg := h.going q c hc
      exact ⟨hg.count, hg.lt.trans (Nat.lt_succ_self _), hg.plain, hg.open_, hg.bytes⟩
  · intro q q' c c' hq hq' hid
    rcases call_update hq with ⟨hqp, hc⟩ | ⟨-, hc⟩
    · rcases call_update hq' with ⟨hqp', -⟩ | ⟨-, hc'⟩
      · rw [hqp, hqp']
      · cases hc
        exact absurd hid (h.going q' c' hc').lt.ne'
    · rcases call_update hq' with ⟨-, hc'⟩ | ⟨-, hc'⟩
      · cases hc'
        exact absurd hid (h.going q c hc).lt.ne
      · exact h.distinct q q' c c' hc hc' hid
  · intro d hd
    obtain ⟨hlt, hend, hne⟩ := h.past d hd
    refine ⟨hlt.trans (Nat.lt_succ_self _), hend, fun q c hq => ?_⟩
    rcases call_update hq with ⟨-, hc⟩ | ⟨-, hc⟩
    · cases hc
      exact hlt.ne'
    · exact hne q c hc

omit [DecidableEq P] in
theorem others (h : Ledger s) (hp : (s.pc p).call = some c) {q : P} (hq : q ≠ p) (hc' : (s.pc q).call = some c') : c'.id ≠ c.id :=
  fun hid => hq (h.distinct q p c' c hc' hp hid)

theorem copy (h : Ledger s) (hp : (s.pc p).call = some c) (hn : c.n ≠ 0) (hd : b ≠ ctrlD) (hl : b ≠ newline)
    (hpc : t.pc = update s.pc p (.loop { c with n := c.n - 1, out := c.out ++ [b] }))
    (htaken : t.taken = s.taken ++ [(c.id, b)]) (hdone : t.done = s.done) (hcalls : t.calls = s.calls) : Ledger t := by
  have hg := h.going p c hp
  refine ⟨?_, ?_, ?_, by rw [hdone]; exact h.once, ?_, ?_⟩
  · intro q c' hq
    rw [hpc] at hq
    rw [htaken, hcalls]
    rcases call_update hq with ⟨-, hc⟩ | ⟨hqp, hc⟩
    · cases hc
      refine ⟨?_, hg.lt, ?_, ?_, ?_⟩
      · have := hg.count
        rw [List.length_append, List.length_singleton]
        dsimp only
        omega
      · simp [hg.plain, Ne.symm hd]
      · simp [hg.open_, Ne.symm hl]
      · rw [bytesOf_self, hg.bytes]
    · exact (h.going q c' hc).more (h.others hp hqp hc)
  · intro q q' c₁ c₂ hq hq' hid
    rw [hpc] at hq hq'
    rcases call_update hq with ⟨hqp, hc⟩ | ⟨hqp, hc⟩
    · rcases call_update hq' with ⟨hqp', -⟩ | ⟨hqp', hc'⟩
      · rw [hqp, hqp']
      · cases hc
        exact absurd hid.symm (h.others (c := c) hp hqp' hc')
    · rcases call_update hq' with ⟨-, hc'⟩ | ⟨-, hc'⟩
      · cases hc'
        exact absurd hid (h.others (c := c) hp hqp hc)
      · exact h.distinct q q' c₁ c₂ hc hc' hid
  · intro d hdm
    rw [hdone] at hdm
    obtain ⟨hlt, hend, hne⟩ := h.past d hdm
    rw [hcalls, htaken]
    refine ⟨hlt, hend.more (Ne.symm (hne p c hp)), fun q c' hq => ?_⟩
    rw [hpc] at hq
    rcases call_update hq with ⟨-, hc⟩ | ⟨-, hc⟩
    · cases hc
      exact hne p c hp
    · exact hne q c' hc
  · intro e he
    rw [htaken, List.mem_append, List.mem_singleton] at he
    rw [hcalls]
    rcases he with he | rfl
    · exact h.fresh e he
    · exact hg.lt
  · intro i hi
    rw [htaken, List.mem_append, List.mem_singleton] at hi
    rw [hdone]
    rcases hi with hi | hi
    · exact h.eofs i hi
    · cases hi
      exact absurd rfl hd

theorem returns (h : Ledger s) (hp : (s.pc p).call = some c) {new : List (ℕ × UInt8)} (hid : d.call.id = c.id)
    (hnew : new = [] ∨ new = [(c.id, b)]) (hend : Ended (s.taken ++ new) d) (heof : ∀ i, (i, ctrlD) ∈ new → d.stop = .eof)
    (hpc : t.pc = update s.pc p .idle) (htaken : t.taken = s.taken ++ new) (hdone : t.done = d :: s.done)
    (hcalls : t.calls = s.calls) : Ledger t := by
  have hmore : ∀ d', Ended s.taken d' → d'.call.id ≠ c.id → Ended (s.taken ++ new) d' := by
    intro d' hd' hne
    rcases hnew with rfl | rfl
    · rw [List.append_nil]
      exact hd'
    · exact hd'.more hne
  have hid' : ∀ e ∈ new, e.1 = c.id := by
    intro e he
    rcases hnew with rfl | rfl
    · cases he
    · rw [List.mem_singleton.mp he]
  have hold : ∀ q c', (t.pc q).call = some c' → q ≠ p ∧ (s.pc q).call = some c' := by
    intro q c' hq
    rw [hpc] at hq
    rcases call_update hq with ⟨-, hc⟩ | hc
    · cases hc
    · exact hc
  refine ⟨?_, ?_, ?_, ?_, ?_, ?_⟩
  · intro q c' hq
    obtain ⟨hqp, hc⟩ := hold q c' hq
    rw [htaken, hcalls]
    rcases hnew with rfl | rfl
    · rw [List.append_nil]
      exact h.going q c' hc
    · exact (h.going q c' hc).more (h.others hp hqp hc)
  · intro q q' c₁ c₂ hq hq'
    exact h.distinct q q' c₁ c₂ (hold q c₁ hq).2 (hold q' c₂ hq').2
  · intro d' hd'
    rw [hdone] at hd'
    rw [hcalls, htaken]
    rcases List.mem_cons.mp hd' with rfl | hd'
    · refine ⟨by rw [hid]; exact (h.going p c hp).lt, hend, fun q c' hq => ?_⟩
      rw [hid]
      exact h.others hp (hold q c' hq).1 (hold q c' hq).2
    · obtain ⟨hlt, hend', hne⟩ := h.past d' hd'
      exact ⟨hlt, hmore d' hend' (Ne.symm (hne p c hp)), fun q c' hq => hne q c' (hold q c' hq).2⟩
  · rw [hdone, List.map_cons, List.nodup_cons]
    refine ⟨fun hmem => ?_, h.once⟩
    obtain ⟨d', hd', heq⟩ := List.mem_map.mp hmem
    exact (h.past d' hd').2.2 p c hp (by rw [heq, hid])
  · intro e he
    rw [htaken] at he
    rw [hcalls]
    rcases List.mem_append.mp he with he | he
    · exact h.fresh e he
    · rw [hid' e he]
      exact (h.going p c hp).lt
  · intro i hi
    rw [htaken] at hi
    rw [hdone]
    rcases List.mem_append.mp hi with hi | hi
    · obtain ⟨d', hd', hprop⟩ := h.eofs i hi
      exact ⟨d', List.mem_cons_of_mem _ hd', hprop⟩
    · exact ⟨d, List.mem_cons_self, hid.trans (hid' _ hi).symm, heof i hi⟩

end Ledger

/-! ### Runs -/

structure Inv (a : Typed) (s : St P) : Prop where
  holds : Holds s.cons a
  stream : s.committed = s.taken.map Prod.snd ++ a.unread
  awake : ∀ p c, s.pc p = .asleep c → a.unread = []
  ledger : Ledger s

theorem Holds.unread_eq {c : Cons} {a : Typed} (h : Holds c a) : c.unread = a.unread := h.before.entries_eq h.unread_lt

theorem Holds.entries_enter {c : Cons} {a : Typed} (h : Holds c a) (b : UInt8) :
    (a.enter b).unread = a.unread ++ (c.consoleintr b).1.entries c.w (c.consoleintr b).1.w := by
  obtain ⟨l, hl⟩ := a.unread_enter b
  have h' := h.consoleintr b
  have hring := h'.before
  rw [← hl, (w_consoleintr c b).1] at hring
  have hlen := h'.unread_lt
  rw [← hl, List.length_append] at hlen
  have hdrop := hring.drop Holds.dvd
  rw [← h.w] at hdrop
  rw [← hl, Cons.entries, hdrop.entries_eq (by omega)]

theorem call_wake (d : Pc) : d.wake.call = d.call := by
  cases d <;> rfl

theorem wake_ne (d : Pc) (c : Call) : d.wake ≠ .asleep c := by
  cases d <;> simp [Pc.wake]

namespace Inv

variable {a : Typed} {s t : St P} {p : P} {c : Call}

theorem of_intr {b : UInt8} (h : Inv a s) (ht : step s (.intr b) = some t) : Inv (a.enter b) t := by
  simp only [step] at ht
  by_cases hlock : s.lock = none
  swap
  · rw [if_neg hlock] at ht
    cases ht
  rw [if_pos hlock] at ht
  cases ht
  refine ⟨h.holds.consoleintr b, ?_, ?_, ?_⟩
  · dsimp only
    rw [h.holds.entries_enter b, h.stream, List.append_assoc]
  · intro p c hp
    dsimp only at hp
    cases hw : (s.cons.consoleintr b).2 with
    | true =>
      rw [if_pos hw] at hp
      exact absurd hp (wake_ne _ c)
    | false =>
      rw [if_neg (by rw [hw]; exact Bool.false_ne_true)] at hp
      obtain ⟨hr, hsame⟩ := w_consoleintr s.cons b
      rw [← (h.holds.consoleintr b).empty_iff, hr, hsame hw]
      exact h.holds.empty_iff.mpr (h.awake p c hp)
  · refine h.ledger.same ?_ rfl rfl rfl
    intro q
    dsimp only
    split_ifs
    · exact call_wake _
    · rfl

theorem asleep_update {d : Pc} (h : Inv a s) (hd : ∀ c, d ≠ .asleep c) :
    ∀ q c, update s.pc p d q = .asleep c → a.unread = [] := by
  intro q c hq
  by_cases hqp : q = p
  · rw [hqp, update_self] at hq
    exact absurd hq (hd c)
  · rw [update_of_ne hqp] at hq
    exact h.awake q c hq

omit [DecidableEq P] in
theorem going (h : Inv a s) (hp : s.pc p = .loop c) : (s.pc p).call = some c ∧ Going s.taken s.calls c := by
  have hcall : (s.pc p).call = some c := by
    rw [hp]
    rfl
  exact ⟨hcall, h.ledger.going p c hcall⟩

theorem finish {value : ℤ} {stop : Stop} (h : Inv a s) (hp : s.pc p = .loop c) (hend : Ended s.taken ⟨c, value, stop⟩) :
    Inv a (s.finish p c value stop) := by
  refine ⟨h.holds, h.stream, h.asleep_update (by simp), ?_⟩
  refine h.ledger.returns (h.going hp).1 (b := 0) rfl (Or.inl rfl) ?_ (fun i hi => by cases hi) rfl ?_ rfl rfl
  · rw [List.append_nil]
    exact hend
  · exact (List.append_nil _).symm

theorem take_finish {u l : List UInt8} {b : UInt8} {c' : Call} {value : ℤ} {stop : Stop} (h : Inv ⟨b :: u, l⟩ s)
    (hp : s.pc p = .loop c) (hid : c'.id = c.id) (hend : Ended (s.taken ++ [(c.id, b)]) ⟨c', value, stop⟩)
    (heof : b = ctrlD → stop = .eof) : Inv ⟨u, l⟩ ((s.take c.id).finish p c' value stop) := by
  obtain ⟨hfront, hholds⟩ := h.holds.advance
  refine ⟨hholds, ?_, ?_, ?_⟩
  · change s.committed = (s.taken ++ [(c.id, s.cons.front)]).map Prod.snd ++ u
    rw [hfront, h.stream, List.map_append, List.append_assoc]
    rfl
  · intro q c₁ hq
    have hne := h.asleep_update (p := p) (d := .idle) (by simp) q c₁ hq
    cases hne
  · refine h.ledger.returns (h.going hp).1 (b := b) hid (Or.inr rfl) hend ?_ rfl ?_ rfl rfl
    · intro i hi
      rw [List.mem_singleton] at hi
      exact heof (Prod.mk.inj hi).2.symm
    · change s.taken ++ [(c.id, s.cons.front)] = _
      rw [hfront]

theorem of_loop (h : Inv a s) (hp : s.pc p = .loop c) : ∃ a', Inv a' (s.loop p c) := by
  obtain ⟨hcall, hg⟩ := h.going hp
  have hlines : newline ∉ c.out.dropLast := fun hm => hg.open_ (List.mem_of_mem_dropLast hm)
  have hcount := hg.count
  have hvalue : (c.target : ℤ) - c.n = c.out.length := by omega
  unfold St.loop
  by_cases hn : c.n = 0
  · rw [if_pos hn]
    refine ⟨a, h.finish hp ⟨hg.plain, hlines, by dsimp only; omega, hg.bytes, hvalue, fun _ => ?_, ?_, ?_, ?_⟩⟩
    · dsimp only
      omega
    all_goals
      intro hf
      cases hf
  rw [if_neg hn]
  by_cases hrw : s.cons.r = s.cons.w
  · rw [if_pos hrw]
    by_cases hk : s.killed p = true
    · rw [if_pos hk]
      refine ⟨a, h.finish hp ⟨hg.plain, hlines, by dsimp only; omega, hg.bytes, rfl, ?_, ?_, ?_, ?_⟩⟩
      all_goals
        intro hf
        cases hf
    · rw [if_neg hk]
      refine ⟨a, h.holds, h.stream, fun _ _ _ => h.holds.empty_iff.mp hrw, ?_⟩
      refine h.ledger.same ?_ rfl rfl rfl
      intro q
      dsimp only
      by_cases hq : q = p
      · rw [hq, update_self, hcall]
        rfl
      · rw [update_of_ne hq]
  rw [if_neg hrw]
  obtain ⟨u, l⟩ := a
  cases u with
  | nil => exact absurd (h.holds.empty_iff.mpr rfl) hrw
  | cons b u =>
    obtain ⟨hfront, hholds⟩ := h.holds.advance
    by_cases hd : s.cons.front = ctrlD
    · rw [if_pos hd]
      by_cases hsave : c.n < c.target
      · rw [if_pos hsave, retreat_advance_eq h.holds.ring.lt]
        refine ⟨_, h.finish hp ⟨hg.plain, hlines, by dsimp only; omega, hg.bytes, hvalue, ?_, ?_, ?_, fun _ hnil => ?_⟩⟩
        · intro hf
          cases hf
        · intro hf
          cases hf
        · intro hf
          cases hf
        · dsimp only at hnil
          rw [hnil, List.length_nil] at hcount
          omega
      · rw [if_neg hsave]
        have hnil : c.out = [] := List.eq_nil_of_length_eq_zero (by omega)
        have hb : b = ctrlD := hfront.symm.trans hd
        refine ⟨_, h.take_finish hp rfl ⟨hg.plain, hlines, by dsimp only; omega, ?_, hvalue, ?_, ?_, fun _ => hnil, ?_⟩
          (fun _ => rfl)⟩
        · rw [bytesOf_self, hg.bytes, hnil, hb]
          rfl
        · intro hf
          cases hf
        · intro hf
          cases hf
        · intro hf
          cases hf
    · rw [if_neg hd]
      dsimp only
      rw [hfront] at hd ⊢
      by_cases hline : b = newline
      · rw [if_pos hline]
        refine ⟨_, @take_finish P _ s p c u l b { c with n := c.n - 1, out := c.out ++ [b] } _ _ h hp rfl
          ⟨?_, ?_, ?_, ?_, ?_, ?_, fun _ => ?_, ?_, ?_⟩ (fun hb => absurd hb hd)⟩
        · simp [hg.plain, Ne.symm hd]
        · dsimp only
          rw [List.dropLast_concat]
          exact hg.open_
        · dsimp only
          rw [List.length_append, List.length_singleton]
          omega
        · rw [if_neg (by simp)]
          dsimp only
          rw [bytesOf_self, hg.bytes]
        · rw [if_neg (by simp)]
          dsimp only
          rw [List.length_append, List.length_singleton]
          omega
        · intro hf
          cases hf
        · dsimp only
          rw [List.getLast?_concat, hline]
        · intro hf
          cases hf
        · intro hf
          cases hf
      · rw [if_neg hline]
        refine ⟨⟨u, l⟩, hholds, ?_, ?_, ?_⟩
        · change s.committed = (s.taken ++ [(c.id, s.cons.front)]).map Prod.snd ++ u
          rw [hfront, h.stream, List.map_append, List.append_assoc]
          rfl
        · intro q c₁ hq
          have hne := h.asleep_update (p := p) (by simp) q c₁ hq
          cases hne
        · refine h.ledger.copy hcall hn hd hline rfl ?_ rfl rfl
          change s.taken ++ [(c.id, s.cons.front)] = _
          rw [hfront]

theorem of_step {act : Action P} (h : Inv a s) (ht : step s act = some t) : ∃ a', Inv a' t := by
  cases act with
  | intr b => exact ⟨_, h.of_intr ht⟩
  | call p n =>
    cases hp : s.pc p with
    | idle =>
      simp only [step, hp] at ht
      cases ht
      exact ⟨a, h.holds, h.stream, h.asleep_update (by simp), h.ledger.begin _⟩
    | _ =>
      simp only [step, hp] at ht
      cases ht
  | kill p =>
    cases ht
    refine ⟨a, h.holds, h.stream, h.asleep_update (wake_ne _), ?_⟩
    refine h.ledger.same ?_ rfl rfl rfl
    intro q
    dsimp only
    by_cases hq : q = p
    · rw [hq, update_self]
      exact call_wake _
    · rw [update_of_ne hq]
  | next p =>
    cases hp : s.pc p with
    | enter c =>
      simp only [step, hp] at ht
      split_ifs at ht
      cases ht
      refine ⟨a, h.holds, h.stream, h.asleep_update (by simp), ?_⟩
      refine h.ledger.same ?_ rfl rfl rfl
      intro q
      dsimp only
      by_cases hq : q = p
      · rw [hq, update_self, hp]
        rfl
      · rw [update_of_ne hq]
    | loop c =>
      simp only [step, hp] at ht
      cases ht
      exact h.of_loop hp
    | idle =>
      simp only [step, hp] at ht
      cases ht
    | asleep c =>
      simp only [step, hp] at ht
      cases ht

omit [DecidableEq P] in
theorem of_boot : Inv ⟨[], []⟩ (boot P) := by
  refine ⟨⟨⟨Nat.two_pow_pos 32, rfl, fun t ht => absurd ht (Nat.not_lt_zero t)⟩, rfl, by decide, List.not_mem_nil⟩, rfl, ?_, ?_⟩
  · intro p c _
    rfl
  · refine ⟨?_, ?_, ?_, List.nodup_nil, ?_, ?_⟩
    · intro p c hc
      cases hc
    · intro p q c c' hc
      cases hc
    · intro d hd
      cases hd
    · intro e he
      cases he
    · intro i hi
      cases hi

theorem of_run (h : Run step (fun _ _ => True) (boot P) s) : ∃ a, Inv a s := by
  apply h.invariant (I := fun s => ∃ a, Inv a s) ⟨_, of_boot⟩
  rintro s act t ⟨a, ha⟩ - ht
  exact ha.of_step ht

end Inv

theorem Inv.at_ctrlD {a : Typed} {s : St P} {p : P} {c : Call} (h : Inv a s) (hp : s.pc p = .loop c) (hn : 0 < c.n)
    (hd : s.cons.unread.head? = some ctrlD) :
    (c.out = [] → (s.loop p c).cons.unread = s.cons.unread.tail ∧ (s.loop p c).done = ⟨c, 0, .eof⟩ :: s.done) ∧
    (c.out ≠ [] → (s.loop p c).cons.unread = s.cons.unread ∧
      (s.loop p c).done = ⟨c, c.out.length, .saved⟩ :: s.done) := by
  have hcount := (h.going hp).2.count
  obtain ⟨u, l⟩ := a
  rw [h.holds.unread_eq] at hd
  cases u with
  | nil => cases hd
  | cons b u =>
    rw [List.head?_cons, Option.some.injEq] at hd
    subst hd
    obtain ⟨hfront, hholds⟩ := h.holds.advance
    have hne : s.cons.r ≠ s.cons.w := by
      rw [Ne, h.holds.empty_iff]
      exact List.cons_ne_nil _ _
    unfold St.loop
    rw [if_neg hn.ne', if_neg hne, if_pos hfront]
    constructor
    · intro hnil
      rw [hnil, List.length_nil] at hcount
      rw [if_neg (by omega), show (c.target : ℤ) - c.n = 0 by omega, h.holds.unread_eq]
      exact ⟨hholds.unread_eq, rfl⟩
    · intro hout
      have hpos := List.length_pos_of_ne_nil hout
      rw [if_pos (by omega), show (c.target : ℤ) - c.n = c.out.length by omega, retreat_advance_eq h.holds.ring.lt]
      exact ⟨rfl, rfl⟩

theorem console_line_discipline {s : St P} (h : Run step (fun _ _ => True) (boot P) s) :
    (ahead (2 ^ 32) s.cons.r s.cons.w ≤ ahead (2 ^ 32) s.cons.r s.cons.e ∧ ahead (2 ^ 32) s.cons.r s.cons.e ≤ inputBuf) ∧
    (∀ b t, step s (.intr b) = some t → t.cons.r = s.cons.r ∧ s.cons.unread <+: t.cons.unread) ∧
    s.committed = s.taken.map Prod.snd ++ s.cons.unread ∧
    (∀ p c, (s.pc p).call = some c → bytesOf s.taken c.id = c.out) ∧
    (∀ d ∈ s.done, Ended s.taken d) ∧ (s.done.map (fun d => d.call.id)).Nodup ∧
    (∀ i, (i, ctrlD) ∈ s.taken → ∃ d ∈ s.done, d.call.id = i ∧ d.stop = .eof) ∧
    (∀ p c t, s.pc p = .loop c → 0 < c.n → s.cons.unread.head? = some ctrlD → step s (.next p) = some t →
      (c.out = [] → t.cons.unread = s.cons.unread.tail ∧ t.done = ⟨c, 0, .eof⟩ :: s.done) ∧
      (c.out ≠ [] → t.cons.unread = s.cons.unread ∧ t.done = ⟨c, c.out.length, .saved⟩ :: s.done)) ∧
    ∀ p c, s.pc p = .asleep c → s.cons.r = s.cons.w := by
  obtain ⟨a, ha⟩ := Inv.of_run h
  refine ⟨⟨?_, ?_⟩, ?_, ?_, fun p c hc => (ha.ledger.going p c hc).bytes, fun d hd => (ha.ledger.past d hd).2.1,
    ha.ledger.once, ha.ledger.eofs, ?_, fun p c hp => ha.holds.empty_iff.mpr (ha.awake p c hp)⟩
  · rw [ha.holds.ahead_w, ha.holds.ahead_e, List.length_append]
    exact Nat.le_add_right _ _
  · rw [ha.holds.ahead_e]
    exact ha.holds.small
  · intro b t ht
    have hb := ha.of_intr ht
    refine ⟨?_, ?_⟩
    · simp only [step] at ht
      split_ifs at ht <;> cases ht <;> exact (w_consoleintr s.cons b).1
    · rw [ha.holds.unread_eq, hb.holds.unread_eq]
      exact a.unread_enter b
  · rw [ha.holds.unread_eq]
    exact ha.stream
  · intro p c t hp hn hd ht
    simp only [step, hp] at ht
    cases ht
    exact ha.at_ctrlD hp hn hd

def typedLine : List (Action Unit) :=
  [.call () 5, .next (), .next (), .intr 97, .intr ctrlH, .intr 98, .intr carriageReturn, .next (), .next (), .next ()]

theorem edited_line_is_read : ∃ s : St Unit, Run step (fun _ _ => True) (boot Unit) s ∧
    s.committed = s.taken.map Prod.snd ++ s.cons.unread ∧ s.taken = [(0, 98), (0, newline)] ∧
    s.done.map Done.value = [2] := by
  obtain ⟨s, hs⟩ : ∃ s, execute step (fun _ _ => True) (boot Unit) typedLine = some s :=
    Option.isSome_iff_exists.mp (by decide +kernel)
  have hrun := run_of_execute hs
  refine ⟨s, hrun, (console_line_discipline hrun).2.2.1, ?_, ?_⟩
  · have hall : (execute step (fun _ _ => True) (boot Unit) typedLine).map St.taken =
        some [(0, 98), (0, newline)] := by decide +kernel
    rw [hs] at hall
    exact Option.some.inj hall
  · have hall : (execute step (fun _ _ => True) (boot Unit) typedLine).map
        (fun s => s.done.map Done.value) = some [2] := by decide +kernel
    rw [hs] at hall
    exact Option.some.inj hall

end Xv6.Console
