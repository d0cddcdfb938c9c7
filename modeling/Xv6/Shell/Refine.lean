import Mathlib.Data.List.Forall2
import Xv6.Shell.Grammar

namespace Xv6.Shell

variable {s s₀ : List UInt8} {t : Token} {ts : List Token}

/-! ### Commands over related strings -/

inductive Cmd.Rel {α β : Type} (R : α → β → Prop) : Cmd α → Cmd β → Prop
  | exec {as bs} (h : List.Forall₂ R as bs) : Rel R (.exec as) (.exec bs)
  | redir {c d a b} (mode fd : ℕ) (h : Rel R c d) (hfile : R a b) : Rel R (.redir c a mode fd) (.redir d b mode fd)
  | pipe {c c' d d'} (h : Rel R c d) (h' : Rel R c' d') : Rel R (.pipe c c') (.pipe d d')
  | list {c c' d d'} (h : Rel R c d) (h' : Rel R c' d') : Rel R (.list c c') (.list d d')
  | back {c d} (h : Rel R c d) : Rel R (.back c) (.back d)

def Redir.Rel {α β : Type} (R : α → β → Prop) (r : Redir α) (r' : Redir β) : Prop :=
  R r.file r'.file ∧ r.mode = r'.mode ∧ r.fd = r'.fd

section Rel

variable {α β : Type} {R R' : α → β → Prop} {c : Cmd α} {d : Cmd β}

theorem Cmd.Rel.redirs {rs : List (Redir α)} {rs' : List (Redir β)} (h : Cmd.Rel R c d)
    (hrs : List.Forall₂ (Redir.Rel R) rs rs') : Cmd.Rel R (c.redirs rs) (d.redirs rs') := by
  induction hrs generalizing c d with
  | nil => exact h
  | @cons r r' rs rs' hr hrs ih =>
    obtain ⟨hfile, hmode, hfd⟩ := hr
    apply ih
    dsimp only
    rw [hmode, hfd]
    exact .redir _ _ h hfile

theorem Cmd.Rel.mono (h : Cmd.Rel R c d) (hR : ∀ a b, R a b → R' a b) : Cmd.Rel R' c d := by
  induction h with
  | exec h => exact .exec (h.imp hR)
  | redir mode fd _ hfile ih => exact .redir mode fd ih (hR _ _ hfile)
  | pipe _ _ ih ih' => exact .pipe ih ih'
  | list _ _ ih ih' => exact .list ih ih'
  | back _ ih => exact .back ih

theorem Cmd.Rel.map {f : α → β} (h : Cmd.Rel R c d) (hf : ∀ a b, R a b → f a = b) : c.map f = d := by
  induction h with
  | exec h =>
    rw [Cmd.map]
    congr 1
    induction h with
    | nil => rfl
    | cons hab _ ih => rw [List.map_cons, hf _ _ hab, ih]
  | redir mode fd _ hfile ih => rw [Cmd.map, ih, hf _ _ hfile]
  | pipe _ _ ih ih' => rw [Cmd.map, ih, ih']
  | list _ _ ih ih' => rw [Cmd.map, ih, ih']
  | back _ ih => rw [Cmd.map, ih]

end Rel

/-! ### The parser on bytes follows the parser on tokens -/

structure Span.IsWordOf (s₀ : List UInt8) (sp : Span) (w : List UInt8) : Prop where
  word : IsWord sp.q sp.eq w
  suffix : sp.q <:+ s₀

inductive Follows {α β : Type} (s₀ : List UInt8) (R : α → β → Prop) :
    Except Fault (α × List UInt8) → Except Fault (β × List Token) → Prop
  | ok {a b s ts} (hab : R a b) (hs : s <:+ s₀) (hts : tokens s = ts) : Follows s₀ R (.ok (a, s)) (.ok (b, ts))
  | error (e : Fault) : Follows s₀ R (.error e) (.error e)

section Follows

variable {α α' β β' : Type} {R : α → β → Prop} {R' : α' → β' → Prop}

theorem Follows.bind {x : Except Fault (α × List UInt8)} {y : Except Fault (β × List Token)}
    {f : α × List UInt8 → Except Fault (α' × List UInt8)} {g : β × List Token → Except Fault (β' × List Token)}
    (h : Follows s₀ R x y) (hf : ∀ a b s, R a b → s <:+ s₀ → Follows s₀ R' (f (a, s)) (g (b, tokens s))) :
    Follows s₀ R' (x >>= f) (y >>= g) := by
  cases h with
  | error e => exact .error e
  | ok hab hs hts =>
    subst hts
    exact hf _ _ _ hab hs

end Follows

def ahead (toks : List UInt8) (ts : List Token) : Bool := ts.head?.any (fun t => t.lead.any (strchr toks))

theorem Takes.of_suffix {l : Lexed} (h : Takes s t ts l) (hs : s <:+ s₀) : Takes s₀ t ts l := by
  refine ⟨h.ret, h.rest, h.suffix.trans hs, Nat.lt_of_lt_of_le h.shorter hs.length_le, ?_⟩
  intro w hw
  exact ⟨(h.word w hw).1, (h.word w hw).2.trans hs⟩

theorem isWordOf_of_takes {l : Lexed} {w : List UInt8} (h : Takes s₀ (.word w) ts l) : l.span.IsWordOf s₀ w :=
  ⟨(h.word w rfl).1, (h.word w rfl).2⟩

section Parser

variable (hs₀ : 0 ∉ s₀)

include hs₀

theorem takes_gettoken (hs : s <:+ s₀) (h : tokens s = t :: ts) : Takes s₀ t ts (gettoken s) :=
  (gettoken_cons (notMem_of_suffix hs hs₀) h).of_suffix hs

theorem takes_peek (toks : List UInt8) (hs : s <:+ s₀) (h : tokens s = t :: ts) : Takes s₀ t ts (gettoken (peek s toks).2) :=
  takes_gettoken hs₀ ((peek_suffix s toks).trans hs) ((peek_tokens s toks).trans h)

theorem peek_ahead {toks : List UInt8} (hs : s <:+ s₀) (htoks : ∀ b ∈ toks, b ∈ symbols) :
    (peek s toks).1 = ahead toks (tokens s) := by
  cases h : tokens s with
  | nil => rw [peek_nil h]; rfl
  | cons t ts => rw [peek_cons (notMem_of_suffix hs hs₀) h htoks]; rfl

theorem ret_gettoken_ne (hs : s <:+ s₀) (h : ∀ w ts, tokens s ≠ .word w :: ts) : (gettoken s).ret ≠ 97 := by
  cases hts : tokens s with
  | nil =>
    rw [gettoken_nil hts]
    decide
  | cons t ts =>
    rw [(takes_gettoken hs₀ hs hts).ret]
    cases t with
    | word w => exact absurd hts (h w ts)
    | _ => decide

theorem peek_one (hs : s <:+ s₀) (b : UInt8) {u : Token} (hu : symbol b = some u) (hgt : b ≠ 62) :
    (∃ ts, tokens s = u :: ts ∧ (peek s [b]).1 = true ∧ Takes s₀ u ts (gettoken (peek s [b]).2)) ∨
      (∀ ts, tokens s ≠ u :: ts) ∧ ¬(peek s [b]).1 = true := by
  have hmem : ∀ c ∈ [b], c ∈ symbols := by
    intro c hc
    obtain rfl := List.mem_singleton.mp hc
    by_contra hno
    have : symbol c = none := by
      rw [symbol_eq_none_iff, strchr, List.any_eq_false]
      rintro d hd heq
      rw [decide_eq_true_eq] at heq
      exact hno (heq ▸ hd)
    rw [this] at hu
    cases hu
  rw [peek_ahead hs₀ hs hmem]
  by_cases h : ∃ ts, tokens s = u :: ts
  · obtain ⟨ts, hts⟩ := h
    refine .inl ⟨ts, hts, ?_, takes_peek hs₀ [b] hs hts⟩
    rw [hts]
    unfold symbol at hu
    split_ifs at hu with h₁ h₂ h₃ h₄ h₅ h₆ <;> cases hu <;> subst b <;> rfl
  · refine .inr ⟨fun ts hts => h ⟨ts, hts⟩, ?_⟩
    cases hts : tokens s with
    | nil => exact Bool.false_ne_true
    | cons t ts =>
      have hne : t ≠ u := fun heq => h ⟨ts, heq ▸ hts⟩
      unfold symbol at hu
      split_ifs at hu with h₁ h₂ h₃ h₄ h₅ h₆ <;> cases hu <;> subst b <;>
        cases t <;> first | exact Bool.false_ne_true | exact absurd rfl hne

theorem follows_parseredirs (n : ℕ) (hs : s <:+ s₀) :
    Follows s₀ (List.Forall₂ (Redir.Rel (Span.IsWordOf s₀))) (parseredirs n s) (Tokens.parseredirs n (tokens s)) := by
  induction n generalizing s with
  | zero => exact .error _
  | succ n ih =>
    have hstay : Follows s₀ (List.Forall₂ (Redir.Rel (Span.IsWordOf s₀))) (.ok ([], (peek s [60, 62]).2))
        (.ok ([], tokens s)) := .ok .nil ((peek_suffix s _).trans hs) (peek_tokens s _)
    unfold parseredirs Tokens.parseredirs
    rw [peek_ahead hs₀ hs (by simp [symbols])]
    cases h : tokens s with
    | nil =>
      rw [h] at hstay
      exact hstay
    | cons t ts =>
      have htake := takes_peek hs₀ [60, 62] hs h
      rw [h] at hstay
      have hahead : ahead [60, 62] (t :: ts) = t.op.isSome := by cases t <;> rfl
      rw [hahead]
      dsimp only
      cases hop : t.op with
      | none => exact hstay
      | some o =>
        rw [if_pos (by rfl)]
        dsimp only
        by_cases hw : ∃ w us, ts = .word w :: us
        · obtain ⟨w, us, rfl⟩ := hw
          have hfile := takes_gettoken hs₀ htake.suffix htake.rest
          rw [if_neg (by rw [hfile.ret]; exact not_not_intro rfl)]
          dsimp only
          rw [← hfile.rest]
          apply (ih hfile.suffix).bind
          intro rs rs' s' hrs hs'
          refine .ok ?_ hs' rfl
          have hnode : redirNode (gettoken (peek s [60, 62]).2).ret (gettoken (gettoken (peek s [60, 62]).2).s).span =
              [⟨(gettoken (gettoken (peek s [60, 62]).2).s).span, (o.redir w).mode, (o.redir w).fd⟩] := by
            rw [htake.ret]
            cases t <;> cases hop <;> rfl
          rw [hnode]
          have hword := isWordOf_of_takes hfile
          refine .cons ⟨?_, rfl, rfl⟩ hrs
          cases o <;> exact hword
        · have hno : ∀ w us, tokens (gettoken (peek s [60, 62]).2).s ≠ .word w :: us := by
            intro w us heq
            exact hw ⟨w, us, htake.rest.symm.trans heq⟩
          rw [if_pos (ret_gettoken_ne hs₀ htake.suffix hno)]
          split
          · exact absurd ⟨_, _, rfl⟩ hw
          · exact .error _

theorem follows_parseargs (n : ℕ) {argv : List Span} {argv' : List (List UInt8)} (hs : s <:+ s₀)
    (hargv : List.Forall₂ (Span.IsWordOf s₀) argv argv') :
    Follows s₀ (fun a b => List.Forall₂ (Span.IsWordOf s₀) a.1 b.1 ∧ List.Forall₂ (Redir.Rel (Span.IsWordOf s₀)) a.2 b.2)
      (parseargs n argv s) (Tokens.parseargs n argv' (tokens s)) := by
  induction n generalizing s argv argv' with
  | zero => exact .error _
  | succ n ih =>
    unfold parseargs Tokens.parseargs
    rw [peek_ahead hs₀ hs (by simp [symbols])]
    have hsuf := (peek_suffix s [124, 41, 38, 59]).trans hs
    have hpeek := peek_tokens s [124, 41, 38, 59]
    cases h : tokens s with
    | nil =>
      rw [gettoken_nil (hpeek.trans h)]
      exact .ok ⟨hargv, .nil⟩ (List.nil_suffix) (by rw [tokens])
    | cons t ts =>
      have htake := takes_peek hs₀ [124, 41, 38, 59] hs h
      by_cases hw : ∃ w, t = .word w
      · obtain ⟨w, rfl⟩ := hw
        have hargv' : List.Forall₂ (Span.IsWordOf s₀) (argv ++ [(gettoken (peek s [124, 41, 38, 59]).2).span])
            (argv' ++ [w]) := List.rel_append hargv (.cons (isWordOf_of_takes htake) .nil)
        rw [if_neg (by exact Bool.false_ne_true), if_neg (by rw [htake.ret, Token.code]; decide),
          if_neg (by rw [htake.ret]; exact not_not_intro rfl), hargv.length_eq, hargv'.length_eq]
        dsimp only
        split_ifs
        · exact .error _
        · exact .error _
        · rw [← htake.rest]
          apply (follows_parseredirs hs₀ n htake.suffix).bind
          intro rs rs' s' hrs hs'
          apply (ih hs' hargv').bind
          rintro ⟨a, ars⟩ ⟨a', ars'⟩ s'' ⟨ha, hars⟩ hs''
          exact .ok ⟨ha, List.rel_append hrs hars⟩ hs'' rfl
      · have hahead : ahead [124, 41, 38, 59] (t :: ts) = decide (t ∈ Tokens.stops) := by
          cases t with
          | word w => exact absurd ⟨w, rfl⟩ hw
          | _ => rfl
        rw [hahead]
        by_cases hmem : t ∈ Tokens.stops
        · rw [decide_eq_true hmem, if_pos rfl]
          split
          · next heq => cases heq
          · next heq => exact absurd ⟨_, (List.cons.inj heq).1⟩ hw
          · next heq =>
            obtain ⟨rfl, rfl⟩ := List.cons.inj heq
            rw [if_pos hmem]
            exact .ok ⟨hargv, .nil⟩ hsuf (hpeek.trans h)
        · have hret : (gettoken (peek s [124, 41, 38, 59]).2).ret ≠ 0 ∧ (gettoken (peek s [124, 41, 38, 59]).2).ret ≠ 97 := by
            rw [htake.ret]
            cases t with
            | word w => exact absurd ⟨w, rfl⟩ hw
            | _ => decide
          rw [decide_eq_false hmem, if_neg Bool.false_ne_true, if_neg hret.1, if_pos hret.2]
          split
          · next heq => cases heq
          · next heq => exact absurd ⟨_, (List.cons.inj heq).1⟩ hw
          · next heq =>
            obtain ⟨rfl, rfl⟩ := List.cons.inj heq
            rw [if_neg hmem]
            exact .error _

theorem follows_parsebacks (n : ℕ) {c : Cmd Span} {d : Cmd (List UInt8)} (hs : s <:+ s₀)
    (h : Cmd.Rel (Span.IsWordOf s₀) c d) :
    Follows s₀ (Cmd.Rel (Span.IsWordOf s₀)) (parsebacks n c s) (Tokens.parsebacks n d (tokens s)) := by
  induction n generalizing s c d with
  | zero => exact .error _
  | succ n ih =>
    unfold parsebacks Tokens.parsebacks
    rcases peek_one hs₀ hs 38 rfl (by decide) with ⟨ts, hts, hpeek, htake⟩ | ⟨hno, hpeek⟩
    · rw [hts, if_pos hpeek]
      dsimp only
      rw [← htake.rest]
      exact ih htake.suffix (.back h)
    · rw [if_neg hpeek]
      split
      · next hts => exact absurd hts (hno _)
      · exact .ok h ((peek_suffix s _).trans hs) (peek_tokens s _)

theorem follows_parse (n : ℕ) :
    (∀ {s : List UInt8}, s <:+ s₀ →
      Follows s₀ (Cmd.Rel (Span.IsWordOf s₀)) (parseline n s) (Tokens.parseline n (tokens s))) ∧
    (∀ {s : List UInt8}, s <:+ s₀ →
      Follows s₀ (Cmd.Rel (Span.IsWordOf s₀)) (parsepipe n s) (Tokens.parsepipe n (tokens s))) ∧
    (∀ {s : List UInt8}, s <:+ s₀ →
      Follows s₀ (Cmd.Rel (Span.IsWordOf s₀)) (parseexec n s) (Tokens.parseexec n (tokens s))) ∧
    (∀ {s : List UInt8}, s <:+ s₀ →
      Follows s₀ (Cmd.Rel (Span.IsWordOf s₀)) (parseblock n s) (Tokens.parseblock n (tokens s))) := by
  induction n with
  | zero => exact ⟨fun _ => .error _, fun _ => .error _, fun _ => .error _, fun _ => .error _⟩
  | succ n ih =>
    obtain ⟨ihline, ihpipe, ihexec, ihblock⟩ := ih
    refine ⟨?_, ?_, ?_, ?_⟩
    · intro s hs
      unfold parseline Tokens.parseline
      apply (ihpipe hs).bind
      intro c d s hc hs
      apply (follows_parsebacks hs₀ n hs hc).bind
      intro c d s hc hs
      dsimp only
      rcases peek_one hs₀ hs 59 rfl (by decide) with ⟨ts, hts, hpeek, htake⟩ | ⟨hno, hpeek⟩
      · rw [hts, if_pos hpeek, ← htake.rest]
        apply (ihline htake.suffix).bind
        intro c' d' s' hc' hs'
        exact .ok (.list hc hc') hs' rfl
      · rw [if_neg hpeek]
        split
        · next hts => exact absurd hts (hno _)
        · exact .ok hc ((peek_suffix s _).trans hs) (peek_tokens s _)
    · intro s hs
      unfold parsepipe Tokens.parsepipe
      apply (ihexec hs).bind
      intro c d s hc hs
      dsimp only
      rcases peek_one hs₀ hs 124 rfl (by decide) with ⟨ts, hts, hpeek, htake⟩ | ⟨hno, hpeek⟩
      · rw [hts, if_pos hpeek, ← htake.rest]
        apply (ihpipe htake.suffix).bind
        intro c' d' s' hc' hs'
        exact .ok (.pipe hc hc') hs' rfl
      · rw [if_neg hpeek]
        split
        · next hts => exact absurd hts (hno _)
        · exact .ok hc ((peek_suffix s _).trans hs) (peek_tokens s _)
    · intro s hs
      unfold parseexec Tokens.parseexec
      have hsuf := (peek_suffix s [40]).trans hs
      have hpeek := peek_tokens s [40]
      rcases peek_one hs₀ hs 40 rfl (by decide) with ⟨ts, hts, hfound, -⟩ | ⟨hno, hfound⟩
      · rw [hts, if_pos hfound]
        dsimp only
        rw [← hts, ← hpeek]
        exact ihblock hsuf
      · rw [if_neg hfound]
        split
        · next hts => exact absurd hts (hno _)
        · rw [← hpeek]
          apply (follows_parseredirs hs₀ n hsuf).bind
          intro rs rs' s' hrs hs'
          apply (follows_parseargs hs₀ n hs' .nil).bind
          rintro ⟨a, ars⟩ ⟨a', ars'⟩ s'' ⟨ha, hars⟩ hs''
          dsimp only at ha hars ⊢
          rw [ha.length_eq]
          split_ifs
          · exact .error _
          · exact .ok ((Cmd.Rel.exec ha).redirs (List.rel_append hrs hars)) hs'' rfl
    · intro s hs
      unfold parseblock Tokens.parseblock
      rcases peek_one hs₀ hs 40 rfl (by decide) with ⟨ts, hts, hpeek, htake⟩ | ⟨hno, hpeek⟩
      · rw [hts, if_neg (by rw [hpeek]; decide)]
        dsimp only
        rw [← htake.rest]
        apply (ihline htake.suffix).bind
        intro c d s hc hs
        dsimp only
        rcases peek_one hs₀ hs 41 rfl (by decide) with ⟨ts, hts, hpeek, htake⟩ | ⟨hno, hpeek⟩
        · rw [hts, if_neg (by rw [hpeek]; decide)]
          dsimp only
          rw [← htake.rest]
          apply (follows_parseredirs hs₀ n htake.suffix).bind
          intro rs rs' s' hrs hs'
          exact .ok (hc.redirs hrs) hs' rfl
        · rw [if_pos (by rw [Bool.not_eq_true] at hpeek; rw [hpeek]; rfl)]
          split
          · next hts => exact absurd hts (hno _)
          · exact .error _
      · rw [if_pos (by rw [Bool.not_eq_true] at hpeek; rw [hpeek]; rfl)]
        split
        · next hts => exact absurd hts (hno _)
        · exact .error _

end Parser

/-! ### The strings of the command -/

def Cut (s₀ : List UInt8) (mem : ℕ → UInt8) : Prop :=
  ∀ d, mem d = memory s₀ d ∨ mem d = 0 ∧ (d = 0 ∨ wordByte (memory s₀ d) = false)

theorem memory_suffix {q : List UInt8} (h : q <:+ s₀) : memory s₀ q.length = q.headD 0 := by
  obtain ⟨p, rfl⟩ := h
  rw [memory, List.length_append, Nat.add_sub_cancel, List.drop_left]

variable {mem : ℕ → UInt8} {sp : Span} {w : List UInt8} {c : Cmd Span} {d : Cmd (List UInt8)}

theorem Span.IsWordOf.boundary (hsp : sp.IsWordOf s₀ w) :
    sp.eq.length = 0 ∨ wordByte (memory s₀ sp.eq.length) = false := by
  have hsuf : sp.eq <:+ s₀ := by
    apply List.IsSuffix.trans _ hsp.suffix
    rw [hsp.word.split]
    exact List.suffix_append _ _
  rw [memory_suffix hsuf]
  cases heq : sp.eq with
  | nil => exact .inl rfl
  | cons b e => exact .inr (hsp.word.stop b (by rw [heq]; rfl))

theorem Cut.terminate (h : Cut s₀ mem) (hsp : sp.IsWordOf s₀ w) : Cut s₀ (sp.terminate mem) := by
  intro d
  rw [Span.terminate]
  by_cases hd : d = sp.eq.length
  · subst hd
    rw [Function.update_self]
    exact .inr ⟨rfl, hsp.boundary⟩
  · rw [Function.update_of_ne hd]
    exact h d

theorem cstring_eq (hs₀ : 0 ∉ s₀) (h : Cut s₀ mem) (hsp : sp.IsWordOf s₀ w) (hend : mem sp.eq.length = 0) :
    cstring mem sp.q.length = w := by
  obtain ⟨⟨hsplit, -, hbytes, -⟩, hsuf⟩ := hsp
  rw [hsplit] at hsuf ⊢
  clear hsplit
  induction w with
  | nil =>
    rw [List.nil_append]
    cases he : sp.eq.length with
    | zero => rw [cstring]
    | succ k =>
      rw [he] at hend
      rw [cstring, if_pos hend]
  | cons b w ih =>
    have hmem := memory_suffix hsuf
    rw [List.cons_append, List.headD_cons, List.length_cons] at hmem
    have hb : b ≠ 0 := by
      rintro rfl
      exact hs₀ (hsuf.subset List.mem_cons_self)
    have hkeep : mem ((w ++ sp.eq).length + 1) = b := by
      rcases h ((w ++ sp.eq).length + 1) with hd | ⟨-, hd | hd⟩
      · rw [hd, hmem]
      · exact absurd hd (Nat.succ_ne_zero _)
      · rw [hmem, hbytes b List.mem_cons_self] at hd
        cases hd
    rw [List.cons_append, List.length_cons, cstring, hkeep, if_neg hb]
    congr 1
    exact ih ((List.suffix_cons _ _).trans hsuf) (fun c hc => hbytes c (List.mem_cons_of_mem _ hc))

structure Cuts (s₀ : List UInt8) (mem mem' : ℕ → UInt8) : Prop where
  cut : Cut s₀ mem'
  zero : ∀ d, mem d = 0 → mem' d = 0

theorem Span.IsWordOf.cuts (h : Cut s₀ mem) (hsp : sp.IsWordOf s₀ w) : Cuts s₀ mem (sp.terminate mem) := by
  refine ⟨h.terminate hsp, ?_⟩
  intro d hd
  rw [Span.terminate, Function.update_apply]
  split_ifs
  · rfl
  · exact hd

theorem Span.terminate_self (sp : Span) (mem : ℕ → UInt8) : sp.terminate mem sp.eq.length = 0 := Function.update_self _ _ _

theorem cuts_argv {argv : List Span} {argv' : List (List UInt8)} (h : Cut s₀ mem)
    (hargv : List.Forall₂ (Span.IsWordOf s₀) argv argv') : Cuts s₀ mem (argv.foldl Span.terminate mem) ∧
      List.Forall₂ (fun sp w => sp.IsWordOf s₀ w ∧ argv.foldl Span.terminate mem sp.eq.length = 0) argv argv' := by
  induction hargv generalizing mem with
  | nil => exact ⟨⟨h, fun _ hd => hd⟩, .nil⟩
  | @cons sp w argv argv' hsp _ ih =>
    have hone := hsp.cuts h
    obtain ⟨hrest, hends⟩ := ih hone.cut
    refine ⟨⟨hrest.cut, fun d hd => hrest.zero d (hone.zero d hd)⟩, .cons ⟨hsp, ?_⟩ hends⟩
    exact hrest.zero _ (sp.terminate_self mem)

theorem cuts_nulterminate (h : Cut s₀ mem) (hc : Cmd.Rel (Span.IsWordOf s₀) c d) : Cuts s₀ mem (nulterminate c mem) ∧
    Cmd.Rel (fun sp w => sp.IsWordOf s₀ w ∧ nulterminate c mem sp.eq.length = 0) c d := by
  induction hc generalizing mem with
  | exec hargv =>
    obtain ⟨hcuts, hends⟩ := cuts_argv h hargv
    exact ⟨hcuts, .exec hends⟩
  | @redir c d sp w mode fd _ hfile ih =>
    obtain ⟨hcuts, hends⟩ := ih h
    have hlast := hfile.cuts hcuts.cut
    refine ⟨⟨hlast.cut, fun e he => hlast.zero e (hcuts.zero e he)⟩, .redir mode fd ?_ ⟨hfile, sp.terminate_self _⟩⟩
    apply hends.mono
    rintro sp' w' ⟨hsp', hz⟩
    exact ⟨hsp', hlast.zero _ hz⟩
  | pipe _ _ ih ih' =>
    obtain ⟨hcuts, hends⟩ := ih h
    obtain ⟨hcuts', hends'⟩ := ih' hcuts.cut
    refine ⟨⟨hcuts'.cut, fun e he => hcuts'.zero e (hcuts.zero e he)⟩, .pipe ?_ hends'⟩
    apply hends.mono
    rintro sp' w' ⟨hsp', hz⟩
    exact ⟨hsp', hcuts'.zero _ hz⟩
  | list _ _ ih ih' =>
    obtain ⟨hcuts, hends⟩ := ih h
    obtain ⟨hcuts', hends'⟩ := ih' hcuts.cut
    refine ⟨⟨hcuts'.cut, fun e he => hcuts'.zero e (hcuts.zero e he)⟩, .list ?_ hends'⟩
    apply hends.mono
    rintro sp' w' ⟨hsp', hz⟩
    exact ⟨hsp', hcuts'.zero _ hz⟩
  | back _ ih =>
    obtain ⟨hcuts, hends⟩ := ih h
    exact ⟨hcuts, .back hends⟩

theorem strings_nulterminate (hs₀ : 0 ∉ s₀) (hc : Cmd.Rel (Span.IsWordOf s₀) c d) :
    c.strings (nulterminate c (memory s₀)) = d := by
  obtain ⟨hcuts, hends⟩ := cuts_nulterminate (fun _ => .inl rfl) hc
  apply hends.map
  rintro sp w ⟨hsp, hz⟩
  exact cstring_eq hs₀ hcuts.cut hsp hz

theorem length_tokens_le (s : List UInt8) : (tokens s).length ≤ s.length := by
  fun_induction tokens s with
  | case1 => exact Nat.le_refl _
  | case2 b s _ ih => exact Nat.le_succ_of_le ih
  | case3 b s _ _ ih =>
    rw [List.length_tail] at ih
    simp only [List.length_cons]
    omega
  | case4 b s _ _ t _ ih => exact Nat.succ_le_succ ih
  | case5 b s _ _ _ ih => exact Nat.succ_le_succ (ih.trans (List.dropWhile_suffix _).length_le)

/-! ### `parsecmd` -/

/-- `parsecmd` on a string returns the command of every derivation of its tokens, and panics if there is none. -/
theorem parsecmd_grammar (hs : 0 ∉ s) :
    (∀ d, Derives .line (tokens s) d → ∃ c mem, parsecmd s = .ok (c, mem) ∧ c.strings mem = d) ∧
      ((¬∃ d, Derives .line (tokens s) d) → ∃ msg, parsecmd s = .error (.panic msg)) := by
  have hlen := length_tokens_le s
  have hfollows := (follows_parse hs (4 * s.length + 4)).1 (List.suffix_refl s)
  constructor
  · intro d hd
    have hparse : Tokens.parseline (4 * s.length + 4) (tokens s) = .ok (d, []) := by
      have hall : Tokens.parse .line (4 * s.length + 4) (tokens s ++ []) = .ok (d, []) :=
        Tokens.parse_append hd (by simp only [Tokens.depth]; omega) nofun
      rw [List.append_nil] at hall
      exact hall
    rw [hparse] at hfollows
    cases hline : parseline (4 * s.length + 4) s with
    | error e =>
      rw [hline] at hfollows
      cases hfollows
    | ok r =>
      obtain ⟨c, s'⟩ := r
      rw [hline] at hfollows
      cases hfollows with
      | ok hc _ hs' =>
        refine ⟨c, _, ?_, strings_nulterminate hs hc⟩
        rw [parsecmd, hline]
        change (if (peek s' []).2 ≠ [] then _ else _) = _
        rw [peek_nil hs', if_neg (not_not_intro rfl)]
        rfl
  · intro hno
    have haccepts := (Tokens.accepts_parse (4 * s.length + 4)).1 (tokens s) (by omega)
    rw [parsecmd]
    generalize parseline (4 * s.length + 4) s = x at hfollows ⊢
    generalize Tokens.parseline (4 * s.length + 4) (tokens s) = y at hfollows haccepts
    cases hfollows with
    | error e =>
      obtain ⟨msg, rfl⟩ := haccepts
      exact ⟨msg, rfl⟩
    | @ok c d s' ts hc _ hts =>
      obtain ⟨vs, hvs, hd⟩ := haccepts
      refine ⟨"syntax", ?_⟩
      apply if_pos
      intro hpeek
      have hnil : ts = [] := by rw [← hts, ← peek_tokens s' [], hpeek, tokens]
      rw [hnil, List.append_nil] at hvs
      exact hno ⟨d, hvs ▸ hd⟩

theorem parsecmd_pipe_back : ∃ c mem, parsecmd [97, 124, 98, 38] = .ok (c, mem) ∧
    c.strings mem = .back (.pipe (.exec [[97]]) (.exec [[98]])) := by
  have htokens : tokens [97, 124, 98, 38] = [.word [97], .bar, .word [98], .amp] := by
    simp [tokens, strchr, whitespace, symbol, wordByte, symbols]
  have ha : Derives .exec [.word [97]] (.exec [[97]]) := .words [] [([97], [])] (by decide)
  have hb : Derives .exec [.word [98]] (.exec [[98]]) := .words [] [([98], [])] (by decide)
  apply (parsecmd_grammar (by decide)).1
  rw [htokens]
  exact .line 1 (.bar ha (.pipe hb))

end Xv6.Shell
