import Mathlib.Data.List.TakeWhile
import Mathlib.Tactic.Tauto

namespace Xv6.Shell

def strchr (s : List UInt8) (c : UInt8) : Bool := s.any (· = c)

def whitespace : List UInt8 := [32, 9, 13, 10, 11]

def symbols : List UInt8 := [60, 124, 62, 38, 59, 40, 41]

def wordByte (b : UInt8) : Bool := !strchr whitespace b && !strchr symbols b

/-- `while(s < es && strchr(whitespace, *s)) s++`. A pointer into the input is the rest of the input from it on, so that
`*s` is 0 at the end. -/
def skipWhitespace (s : List UInt8) : List UInt8 := s.dropWhile (strchr whitespace)

structure Lexed where
  ret : UInt8
  q : List UInt8
  eq : List UInt8
  s : List UInt8

def gettoken (s : List UInt8) : Lexed :=
  let q := skipWhitespace s
  let c := q.headD 0
  if c = 0 then ⟨0, q, q, skipWhitespace q⟩
  else if strchr [124, 40, 41, 59, 38, 60] c then ⟨c, q, q.tail, skipWhitespace q.tail⟩
  else if c = 62 then
    if q.tail.headD 0 = 62 then ⟨43, q, q.tail.tail, skipWhitespace q.tail.tail⟩
    else ⟨c, q, q.tail, skipWhitespace q.tail⟩
  else ⟨97, q, q.dropWhile wordByte, skipWhitespace (q.dropWhile wordByte)⟩

def peek (s toks : List UInt8) : Bool × List UInt8 :=
  let s := skipWhitespace s
  (s.headD 0 ≠ 0 && strchr toks (s.headD 0), s)

inductive Token
  | word (w : List UInt8)
  | less
  | greater
  | append
  | bar
  | amp
  | semi
  | lpar
  | rpar
  deriving DecidableEq

namespace Token

def code : Token → UInt8
  | word _ => 97
  | less => 60
  | greater => 62
  | append => 43
  | bar => 124
  | amp => 38
  | semi => 59
  | lpar => 40
  | rpar => 41

def lead : Token → Option UInt8
  | word _ => none
  | append => some 62
  | t => some t.code

end Token

def symbol (b : UInt8) : Option Token :=
  if b = 60 then some .less
  else if b = 124 then some .bar
  else if b = 62 then some .greater
  else if b = 38 then some .amp
  else if b = 59 then some .semi
  else if b = 40 then some .lpar
  else if b = 41 then some .rpar
  else none

def tokens : List UInt8 → List Token
  | [] => []
  | b :: s =>
    if strchr whitespace b then tokens s
    else if b = 62 ∧ s.head? = some 62 then .append :: tokens s.tail
    else
      match symbol b with
      | some t => t :: tokens s
      | none => .word (b :: s.takeWhile wordByte) :: tokens (s.dropWhile wordByte)
termination_by s => s.length
decreasing_by
  · exact Nat.lt_succ_self _
  · rw [List.length_tail]
    exact Nat.lt_succ_of_le (Nat.sub_le _ _)
  · exact Nat.lt_succ_self _
  · exact Nat.lt_succ_of_le (List.dropWhile_suffix _).length_le

variable {s : List UInt8} {b : UInt8} {t : Token} {ts : List Token}

theorem symbol_eq_none_iff : symbol b = none ↔ strchr symbols b = false := by
  simp only [symbol, strchr, symbols, List.any_cons, List.any_nil, Bool.or_false, Bool.or_eq_false_iff, decide_eq_false_iff_not]
  split_ifs with h₁ h₂ h₃ h₄ h₅ h₆ h₇ <;> simp [eq_comm, *]

theorem notMem_of_suffix {s' : List UInt8} (h : s' <:+ s) (hs : (0 : UInt8) ∉ s) : 0 ∉ s' := fun h0 => hs (h.subset h0)

theorem tokens_whitespace (hb : strchr whitespace b = true) : tokens (b :: s) = tokens s := by
  rw [tokens, if_pos hb]

theorem tokens_skipWhitespace (s : List UInt8) : tokens (skipWhitespace s) = tokens s := by
  induction s with
  | nil => rfl
  | cons b s ih =>
    rw [skipWhitespace, List.dropWhile_cons]
    split_ifs with hb
    · rw [tokens_whitespace hb]
      exact ih
    · rfl

theorem skipWhitespace_suffix (s : List UInt8) : skipWhitespace s <:+ s := List.dropWhile_suffix _

theorem skipWhitespace_head {s' : List UInt8} (h : skipWhitespace s = b :: s') : strchr whitespace b = false := by
  have := List.head?_dropWhile_not (strchr whitespace) s
  rw [← skipWhitespace, h] at this
  exact this

structure IsWord (q eq w : List UInt8) : Prop where
  split : q = w ++ eq
  ne : w ≠ []
  bytes : ∀ b ∈ w, wordByte b = true
  stop : ∀ b, eq.head? = some b → wordByte b = false

theorem isWord_of_dropWhile {q : List UInt8} (hq : wordByte b = true) :
    IsWord (b :: q) (q.dropWhile wordByte) (b :: q.takeWhile wordByte) := by
  refine ⟨?_, List.cons_ne_nil _ _, ?_, ?_⟩
  · rw [List.cons_append, List.takeWhile_append_dropWhile]
  · intro c hc
    rcases List.mem_cons.mp hc with rfl | hc
    · exact hq
    · exact List.mem_takeWhile_imp hc
  · intro c hc
    have := List.head?_dropWhile_not wordByte q
    rw [hc] at this
    exact this

theorem skipWhitespace_eq_nil (h : tokens s = []) : skipWhitespace s = [] := by
  have hskip := tokens_skipWhitespace s
  rw [h] at hskip
  cases hq : skipWhitespace s with
  | nil => rfl
  | cons b q =>
    rw [hq, tokens, if_neg (by rw [skipWhitespace_head hq]; exact Bool.false_ne_true)] at hskip
    split_ifs at hskip
    split at hskip <;> cases hskip

theorem gettoken_nil (h : tokens s = []) : gettoken s = ⟨0, [], [], []⟩ := by
  unfold gettoken
  rw [skipWhitespace_eq_nil h]
  rfl

structure Takes (s : List UInt8) (t : Token) (ts : List Token) (l : Lexed) : Prop where
  ret : l.ret = t.code
  rest : tokens l.s = ts
  suffix : l.s <:+ s
  shorter : l.s.length < s.length
  word : ∀ w, t = .word w → IsWord l.q l.eq w ∧ l.q <:+ s

theorem takes_of_suffix {q r e : List UInt8} {c : UInt8} (hq : skipWhitespace s = b :: q) (hr : r <:+ q) (hc : c = t.code)
    (hrest : tokens r = ts) (hword : ∀ w, t = .word w → IsWord (b :: q) e w) :
    Takes s t ts ⟨c, b :: q, e, skipWhitespace r⟩ := by
  have hs : b :: q <:+ s := hq ▸ skipWhitespace_suffix s
  have hskip := skipWhitespace_suffix r
  refine ⟨hc, ?_, hskip.trans (hr.trans ((List.suffix_cons b q).trans hs)), ?_, fun w hw => ⟨hword w hw, hs⟩⟩
  · rw [← hrest]
    exact tokens_skipWhitespace r
  · calc (skipWhitespace r).length ≤ q.length := (hskip.trans hr).length_le
      _ < (b :: q).length := Nat.lt_succ_self _
      _ ≤ s.length := hs.length_le

theorem gettoken_eq {q : List UInt8} (hq : skipWhitespace s = b :: q) (hb : b ≠ 0) : gettoken s =
    if strchr [124, 40, 41, 59, 38, 60] b then ⟨b, b :: q, q, skipWhitespace q⟩
    else if b = 62 then
      if q.headD 0 = 62 then ⟨43, b :: q, q.tail, skipWhitespace q.tail⟩ else ⟨b, b :: q, q, skipWhitespace q⟩
    else ⟨97, b :: q, (b :: q).dropWhile wordByte, skipWhitespace ((b :: q).dropWhile wordByte)⟩ := by
  unfold gettoken
  rw [hq]
  exact if_neg hb

theorem gettoken_cons (hs : 0 ∉ s) (h : tokens s = t :: ts) : Takes s t ts (gettoken s) := by
  have hskip := tokens_skipWhitespace s
  have hsuf := skipWhitespace_suffix s
  rw [h] at hskip
  cases hq : skipWhitespace s with
  | nil =>
    rw [hq] at hskip
    simp [tokens] at hskip
  | cons b q =>
    have hws := skipWhitespace_head hq
    have hb : b ≠ 0 := by
      rintro rfl
      apply notMem_of_suffix hsuf hs
      rw [hq]
      exact List.mem_cons_self
    rw [hq, tokens, if_neg (by rw [hws]; exact Bool.false_ne_true)] at hskip
    rw [gettoken_eq hq hb]
    by_cases happ : b = 62 ∧ q.head? = some 62
    · -- `>>`
      rw [if_pos happ] at hskip
      cases hskip
      obtain ⟨rfl, hhead⟩ := happ
      have hd : q.headD 0 = 62 := by rw [List.headD_eq_head?_getD, hhead, Option.getD_some]
      rw [if_neg (by decide), if_pos rfl, if_pos hd]
      exact takes_of_suffix hq (List.tail_suffix q) rfl rfl nofun
    rw [if_neg happ] at hskip
    cases hsym : symbol b with
    | none =>
      -- a word
      rw [hsym] at hskip
      cases hskip
      have hno := symbol_eq_none_iff.mp hsym
      have hwb : wordByte b = true := by rw [wordByte, hws, hno]; rfl
      have hother : strchr [124, 40, 41, 59, 38, 60] b = false ∧ b ≠ 62 := by
        simp only [strchr, symbols, List.any_cons, List.any_nil, Bool.or_false, Bool.or_eq_false_iff,
          decide_eq_false_iff_not] at hno ⊢
        tauto
      rw [if_neg (by rw [hother.1]; exact Bool.false_ne_true), if_neg hother.2, List.dropWhile_cons, if_pos hwb]
      apply takes_of_suffix hq (List.dropWhile_suffix _) rfl rfl
      rintro w ⟨⟩
      exact isWord_of_dropWhile hwb
    | some u =>
      -- one symbol
      rw [hsym] at hskip
      cases hskip
      have htake (hu : b = t.code) (hw : ∀ w, t ≠ .word w) : Takes s t (tokens q) ⟨b, b :: q, q, skipWhitespace q⟩ :=
        takes_of_suffix hq (List.suffix_refl q) hu rfl (fun w hw' => absurd hw' (hw w))
      by_cases hgt : b = 62
      · subst hgt
        cases hsym
        have hd : q.headD 0 ≠ 62 := by
          intro hd
          apply happ
          refine ⟨rfl, ?_⟩
          cases q with
          | nil => cases hd
          | cons c q => rw [List.head?_cons, ← hd, List.headD_cons]
        rw [if_neg (by decide), if_pos rfl, if_neg hd]
        exact htake rfl nofun
      · have hone : strchr [124, 40, 41, 59, 38, 60] b = true := by
          by_contra hne
          rw [Bool.not_eq_true] at hne
          have : symbol b = none := by
            rw [symbol_eq_none_iff]
            simp only [strchr, symbols, List.any_cons, List.any_nil, Bool.or_false, Bool.or_eq_false_iff,
              decide_eq_false_iff_not] at hne ⊢
            tauto
          rw [this] at hsym
          cases hsym
        rw [if_pos hone]
        unfold symbol at hsym
        split_ifs at hsym with h₁ h₂ h₄ h₅ h₆ h₇ <;> cases hsym
        · exact htake h₁ nofun
        · exact htake h₂ nofun
        · exact htake h₄ nofun
        · exact htake h₅ nofun
        · exact htake h₆ nofun
        · exact htake h₇ nofun

theorem peek_cons {toks : List UInt8} (hs : 0 ∉ s) (h : tokens s = t :: ts) (htoks : ∀ b ∈ toks, b ∈ symbols) :
    (peek s toks).1 = t.lead.any (strchr toks) := by
  have hskip := tokens_skipWhitespace s
  rw [h] at hskip
  cases hq : skipWhitespace s with
  | nil =>
    rw [hq] at hskip
    simp [tokens] at hskip
  | cons b q =>
    have hb : b ≠ 0 := by
      rintro rfl
      apply notMem_of_suffix (skipWhitespace_suffix s) hs
      rw [hq]
      exact List.mem_cons_self
    have hpeek : (peek s toks).1 = strchr toks b := by
      unfold peek
      rw [hq]
      simp [hb]
    rw [hpeek]
    rw [hq, tokens, if_neg (by rw [skipWhitespace_head hq]; exact Bool.false_ne_true)] at hskip
    split_ifs at hskip with happ
    · cases hskip
      rw [happ.1]
      rfl
    cases hsym : symbol b with
    | none =>
      rw [hsym] at hskip
      cases hskip
      have hno := symbol_eq_none_iff.mp hsym
      rw [Token.lead, Option.any_none, strchr, List.any_eq_false]
      intro c hc heq
      have := List.any_eq_false.mp hno c (htoks c hc)
      exact this heq
    | some u =>
      rw [hsym] at hskip
      cases hskip
      unfold symbol at hsym
      split_ifs at hsym with h₁ h₂ h₃ h₄ h₅ h₆ h₇ <;> cases hsym
      · rw [h₁]; rfl
      · rw [h₂]; rfl
      · rw [h₃]; rfl
      · rw [h₄]; rfl
      · rw [h₅]; rfl
      · rw [h₆]; rfl
      · rw [h₇]; rfl

theorem peek_nil {toks : List UInt8} (h : tokens s = []) : peek s toks = (false, []) := by
  unfold peek
  rw [skipWhitespace_eq_nil h]
  rfl

theorem peek_tokens (s toks : List UInt8) : tokens (peek s toks).2 = tokens s := tokens_skipWhitespace s

theorem peek_suffix (s toks : List UInt8) : (peek s toks).2 <:+ s := skipWhitespace_suffix s

end Xv6.Shell
