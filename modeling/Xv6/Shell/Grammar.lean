import Xv6.Shell.Parser
import Mathlib.Logic.Function.Iterate

namespace Xv6.Shell

inductive Op
  | read
  | write
  | append

namespace Op

def token : Op → Token
  | read => .less
  | write => .greater
  | append => .append

def redir (file : List UInt8) : Op → Redir (List UInt8)
  | read => ⟨file, 0x000, 0⟩
  | write => ⟨file, 0x601, 1⟩
  | append => ⟨file, 0x201, 1⟩

end Op

def Token.op : Token → Option Op
  | less => some .read
  | greater => some .write
  | append => some .append
  | _ => none

def redirTokens (os : List (Op × List UInt8)) : List Token := os.flatMap (fun o => [o.1.token, .word o.2])

def redirNodes (os : List (Op × List UInt8)) : List (Redir (List UInt8)) := os.map (fun o => o.1.redir o.2)

def argTokens (as : List (List UInt8 × List (Op × List UInt8))) : List Token :=
  as.flatMap (fun a => .word a.1 :: redirTokens a.2)

def argNodes (as : List (List UInt8 × List (Op × List UInt8))) : List (Redir (List UInt8)) :=
  as.flatMap (fun a => redirNodes a.2)

inductive NonTerminal
  | line
  | pipe
  | exec
  | block

inductive Derives : NonTerminal → List Token → Cmd (List UInt8) → Prop
  | line {ts c} (k : ℕ) (h : Derives .pipe ts c) : Derives .line (ts ++ List.replicate k .amp) (Cmd.back^[k] c)
  | semi {ts us c d} (k : ℕ) (h : Derives .pipe ts c) (hd : Derives .line us d) :
      Derives .line (ts ++ (List.replicate k .amp ++ .semi :: us)) (.list (Cmd.back^[k] c) d)
  | pipe {ts c} (h : Derives .exec ts c) : Derives .pipe ts c
  | bar {ts us c d} (h : Derives .exec ts c) (hd : Derives .pipe us d) : Derives .pipe (ts ++ .bar :: us) (.pipe c d)
  | exec {ts c} (h : Derives .block ts c) : Derives .exec ts c
  | words (os as) (h : as.length ≤ maxArgs - 1) :
      Derives .exec (redirTokens os ++ argTokens as) ((Cmd.exec (as.map Prod.fst)).redirs (redirNodes os ++ argNodes as))
  | block {ts c} (h : Derives .line ts c) (os) :
      Derives .block (.lpar :: (ts ++ .rpar :: redirTokens os)) (c.redirs (redirNodes os))

/-! ### The parser on tokens -/

namespace Tokens

def parseredirs : ℕ → List Token → Except Fault (List (Redir (List UInt8)) × List Token)
  | 0, _ => .error .fuel
  | n + 1, ts =>
    match ts with
    | [] => .ok ([], [])
    | t :: ts =>
      match t.op with
      | none => .ok ([], t :: ts)
      | some o =>
        match ts with
        | .word w :: ts => do
          let r ← parseredirs n ts
          return (o.redir w :: r.1, r.2)
        | _ => .error (.panic "missing file for redirection")

def stops : List Token := [.bar, .rpar, .amp, .semi]

def parseargs : ℕ → List (List UInt8) → List Token →
    Except Fault ((List (List UInt8) × List (Redir (List UInt8))) × List Token)
  | 0, _, _ => .error .fuel
  | n + 1, argv, ts =>
    match ts with
    | [] => .ok ((argv, []), [])
    | .word w :: ts =>
      if argv.length ≥ maxArgs then .error .overflow
      else if (argv ++ [w]).length ≥ maxArgs then .error (.panic "too many args")
      else do
        let r ← parseredirs n ts
        let a ← parseargs n (argv ++ [w]) r.2
        return ((a.1.1, r.1 ++ a.1.2), a.2)
    | t :: ts => if t ∈ stops then .ok ((argv, []), t :: ts) else .error (.panic "syntax")

def parsebacks : ℕ → Cmd (List UInt8) → List Token → Except Fault (Cmd (List UInt8) × List Token)
  | 0, _, _ => .error .fuel
  | n + 1, cmd, ts =>
    match ts with
    | .amp :: ts => parsebacks n (.back cmd) ts
    | ts => .ok (cmd, ts)

mutual

def parseline : ℕ → List Token → Except Fault (Cmd (List UInt8) × List Token)
  | 0, _ => .error .fuel
  | n + 1, ts => do
    let c ← parsepipe n ts
    let b ← parsebacks n c.1 c.2
    match b.2 with
    | .semi :: ts =>
      let r ← parseline n ts
      return (.list b.1 r.1, r.2)
    | ts => return (b.1, ts)

def parsepipe : ℕ → List Token → Except Fault (Cmd (List UInt8) × List Token)
  | 0, _ => .error .fuel
  | n + 1, ts => do
    let c ← parseexec n ts
    match c.2 with
    | .bar :: ts =>
      let r ← parsepipe n ts
      return (.pipe c.1 r.1, r.2)
    | ts => return (c.1, ts)

def parseexec : ℕ → List Token → Except Fault (Cmd (List UInt8) × List Token)
  | 0, _ => .error .fuel
  | n + 1, ts =>
    match ts with
    | .lpar :: ts => parseblock n (.lpar :: ts)
    | ts => do
      let r ← parseredirs n ts
      let a ← parseargs n [] r.2
      if a.1.1.length ≥ maxArgs then .error .overflow
      else return ((Cmd.exec a.1.1).redirs (r.1 ++ a.1.2), a.2)

def parseblock : ℕ → List Token → Except Fault (Cmd (List UInt8) × List Token)
  | 0, _ => .error .fuel
  | n + 1, ts =>
    match ts with
    | .lpar :: ts => do
      let c ← parseline n ts
      match c.2 with
      | .rpar :: ts =>
        let r ← parseredirs n ts
        return (c.1.redirs r.1, r.2)
      | _ => .error (.panic "syntax - missing )")
    | _ => .error (.panic "parseblock")

end

/-! ### What is accepted derives -/

def Outcome {α : Type} (P : α → Prop) : Except Fault α → Prop
  | .ok a => P a
  | .error e => ∃ msg, e = .panic msg

theorem Outcome.bind {α β : Type} {P : α → Prop} {Q : β → Prop} {x : Except Fault α} {f : α → Except Fault β}
    (hx : Outcome P x) (hf : ∀ a, P a → Outcome Q (f a)) : Outcome Q (x >>= f) := by
  cases x with
  | error e => exact hx
  | ok a => exact hf a hx

theorem Outcome.panic {α : Type} {P : α → Prop} (msg : String) : Outcome P (.error (.panic msg)) := ⟨msg, rfl⟩

variable {n : ℕ} {ts us : List Token} {cmd : Cmd (List UInt8)} {argv : List (List UInt8)}

theorem outcome_parseredirs (hn : ts.length < n) :
    Outcome (fun r => ∃ os, ts = redirTokens os ++ r.2 ∧ r.1 = redirNodes os) (parseredirs n ts) := by
  induction n generalizing ts with
  | zero => exact absurd hn (Nat.not_lt_zero _)
  | succ n ih =>
    unfold parseredirs
    split
    · exact ⟨[], rfl, rfl⟩
    · next t ts =>
      split
      · exact ⟨[], rfl, rfl⟩
      · next o ho =>
        have ht : t = o.token := by
          cases t <;> cases ho <;> rfl
        split
        · next w ts =>
          have hts : ts.length < n := by
            simp only [List.length_cons] at hn
            omega
          apply (ih hts).bind
          rintro ⟨rs, vs⟩ ⟨os, hsplit, hrs⟩
          refine ⟨(o, w) :: os, ?_, congrArg (o.redir w :: ·) hrs⟩
          rw [ht, hsplit]
          rfl
        · exact Outcome.panic _

theorem outcome_parseargs (hn : ts.length < n) (hargv : argv.length ≤ maxArgs - 1) :
    Outcome (fun r => ∃ as, ts = argTokens as ++ r.2 ∧ r.1.1 = argv ++ as.map Prod.fst ∧ r.1.2 = argNodes as ∧
      r.1.1.length ≤ maxArgs - 1) (parseargs n argv ts) := by
  induction n generalizing ts argv with
  | zero => exact absurd hn (Nat.not_lt_zero _)
  | succ n ih =>
    unfold parseargs
    split
    · exact ⟨[], rfl, (List.append_nil _).symm, rfl, hargv⟩
    · next w vs =>
      have hvs : vs.length < n := Nat.lt_of_succ_lt_succ hn
      rw [if_neg (by simp only [maxArgs] at hargv ⊢; omega)]
      split_ifs with hmany
      · exact Outcome.panic _
      · have hnext : (argv ++ [w]).length ≤ maxArgs - 1 := by omega
        apply (outcome_parseredirs hvs).bind
        rintro ⟨rs, us⟩ ⟨os, rfl, rfl⟩
        rw [List.length_append] at hvs
        apply (ih (Nat.lt_of_le_of_lt (Nat.le_add_left _ _) hvs) hnext).bind
        rintro ⟨⟨argv', rs'⟩, us'⟩ ⟨as, hsplit, hargv', hrs', hlen⟩
        refine ⟨(w, os) :: as, ?_, ?_, ?_, hlen⟩
        · dsimp only at hsplit ⊢
          rw [hsplit, argTokens, argTokens, List.flatMap_cons, List.cons_append, List.cons_append, List.append_assoc]
        · dsimp only at hargv' ⊢
          rw [hargv', List.append_assoc]
          rfl
        · dsimp only at hrs' ⊢
          rw [hrs']
          rfl
    · split_ifs
      · exact ⟨[], rfl, (List.append_nil _).symm, rfl, hargv⟩
      · exact Outcome.panic _

theorem Outcome.mono {α : Type} {P Q : α → Prop} {x : Except Fault α} (hx : Outcome P x) (h : ∀ a, P a → Q a) :
    Outcome Q x := by
  cases x with
  | error e => exact hx
  | ok a => exact h a hx

theorem outcome_parsebacks (hn : ts.length < n) :
    Outcome (fun r => ∃ k, ts = List.replicate k .amp ++ r.2 ∧ r.1 = Cmd.back^[k] cmd) (parsebacks n cmd ts) := by
  induction n generalizing ts cmd with
  | zero => exact absurd hn (Nat.not_lt_zero _)
  | succ n ih =>
    unfold parsebacks
    split
    · next vs =>
      apply (ih (Nat.lt_of_succ_lt_succ hn)).mono
      rintro ⟨c, us⟩ ⟨k, hsplit, hc⟩
      refine ⟨k + 1, ?_, hc⟩
      rw [hsplit]
      rfl
    · exact ⟨0, rfl, rfl⟩

def Accepts (nt : NonTerminal) (ts : List Token) : Except Fault (Cmd (List UInt8) × List Token) → Prop :=
  Outcome (fun r => ∃ vs, ts = vs ++ r.2 ∧ Derives nt vs r.1)

theorem accepts_parse (n : ℕ) : (∀ ts : List Token, 4 * ts.length + 4 ≤ n → Accepts .line ts (parseline n ts)) ∧
    (∀ ts : List Token, 4 * ts.length + 3 ≤ n → Accepts .pipe ts (parsepipe n ts)) ∧
    (∀ ts : List Token, 4 * ts.length + 2 ≤ n → Accepts .exec ts (parseexec n ts)) ∧
    (∀ ts : List Token, 4 * ts.length + 1 ≤ n → Accepts .block ts (parseblock n ts)) := by
  induction n with
  | zero => exact ⟨by omega, by omega, by omega, by omega⟩
  | succ n ih =>
    obtain ⟨ihline, ihpipe, ihexec, ihblock⟩ := ih
    refine ⟨?_, ?_, ?_, ?_⟩
    · intro ts hn
      unfold parseline
      apply (ihpipe ts (by omega)).bind
      rintro ⟨c, us⟩ ⟨vs, rfl, hc⟩
      simp only [List.length_append] at hn
      apply (outcome_parsebacks (by dsimp only; omega)).bind
      rintro ⟨b, us'⟩ ⟨k, hk, hb⟩
      dsimp only at hk hb hn ⊢
      subst hk hb
      split
      · next ws =>
        simp only [List.length_append, List.length_cons] at hn
        apply (ihline ws (by omega)).bind
        rintro ⟨d, ws'⟩ ⟨ds, hws, hd⟩
        refine ⟨_, ?_, Derives.semi k hc hd⟩
        dsimp only at hws ⊢
        rw [hws]
        simp only [List.append_assoc, List.cons_append]
      · exact ⟨_, (List.append_assoc _ _ _).symm, Derives.line k hc⟩
    · intro ts hn
      unfold parsepipe
      apply (ihexec ts (by omega)).bind
      rintro ⟨c, us⟩ ⟨vs, rfl, hc⟩
      dsimp only at hn hc ⊢
      simp only [List.length_append] at hn
      split
      · next ws =>
        simp only [List.length_cons] at hn
        apply (ihpipe ws (by omega)).bind
        rintro ⟨d, ws'⟩ ⟨ds, hws, hd⟩
        refine ⟨_, ?_, Derives.bar hc hd⟩
        dsimp only at hws ⊢
        rw [hws]
        simp only [List.append_assoc, List.cons_append]
      · exact ⟨_, rfl, Derives.pipe hc⟩
    · intro ts hn
      unfold parseexec
      split
      · apply (ihblock _ (by omega)).mono
        rintro ⟨c, us⟩ ⟨vs, hvs, hc⟩
        exact ⟨vs, hvs, .exec hc⟩
      · apply (outcome_parseredirs (by omega)).bind
        rintro ⟨rs, us⟩ ⟨os, rfl, rfl⟩
        simp only [List.length_append] at hn
        apply (outcome_parseargs (by dsimp only; omega) (Nat.zero_le _)).bind
        rintro ⟨⟨argv, rs⟩, us'⟩ ⟨as, hsplit, hargv, hrs, hlen⟩
        dsimp only at hsplit hargv hrs hlen ⊢
        subst hsplit hargv hrs
        rw [if_neg (by simp only [maxArgs] at hlen ⊢; omega)]
        rw [List.nil_append, List.length_map] at hlen
        exact ⟨_, (List.append_assoc _ _ _).symm, Derives.words os as hlen⟩
    · intro ts hn
      unfold parseblock
      split
      · next vs =>
        simp only [List.length_cons] at hn
        apply (ihline vs (by omega)).bind
        rintro ⟨c, us⟩ ⟨ws, rfl, hc⟩
        dsimp only at hn hc ⊢
        simp only [List.length_append] at hn
        split
        · next us =>
          simp only [List.length_cons] at hn
          apply (outcome_parseredirs (by omega)).bind
          rintro ⟨rs, us'⟩ ⟨os, hsplit, hrs⟩
          dsimp only at hsplit hrs ⊢
          subst hsplit hrs
          refine ⟨_, ?_, Derives.block hc os⟩
          simp only [List.append_assoc, List.cons_append]
        · exact Outcome.panic _
      · exact Outcome.panic _

/-! ### What derives is accepted -/

def Follow (allowed us : List Token) : Prop := ∀ t, us.head? = some t → t ∈ allowed

theorem parseredirs_append {os : List (Op × List UInt8)} (hn : os.length < n) (hus : ∀ t, us.head? = some t → t.op = none) :
    parseredirs n (redirTokens os ++ us) = .ok (redirNodes os, us) := by
  induction os generalizing n with
  | nil =>
    obtain ⟨n, rfl⟩ := Nat.exists_eq_add_one_of_ne_zero (Nat.ne_of_gt hn)
    rw [redirTokens, List.flatMap_nil, List.nil_append]
    unfold parseredirs
    cases us with
    | nil => rfl
    | cons t us =>
      dsimp only
      rw [hus t rfl]
      rfl
  | cons o os ih =>
    obtain ⟨n, rfl⟩ := Nat.exists_eq_add_one_of_ne_zero (Nat.ne_of_gt (Nat.lt_of_le_of_lt (Nat.zero_le _) hn))
    have hop : o.1.token.op = some o.1 := by cases o.1 <;> rfl
    have hrest := ih (Nat.lt_of_succ_lt_succ hn)
    rw [redirTokens, List.flatMap_cons, List.append_assoc]
    unfold parseredirs
    simp only [List.cons_append, List.nil_append, hop]
    rw [← redirTokens, hrest]
    rfl

theorem op_of_follow {allowed : List Token} (h : Follow allowed us) (hall : ∀ t ∈ allowed, t.op = none) :
    ∀ t, us.head? = some t → t.op = none := fun t ht => hall t (h t ht)

theorem length_redirTokens (os : List (Op × List UInt8)) : (redirTokens os).length = 2 * os.length := by
  induction os with
  | nil => rfl
  | cons o os ih =>
    rw [redirTokens, List.flatMap_cons, List.length_append, ← redirTokens, ih, List.length_cons]
    simp only [List.length_cons, List.length_nil]
    omega

theorem head_argTokens {as : List (List UInt8 × List (Op × List UInt8))} (hus : ∀ t, us.head? = some t → t.op = none) :
    ∀ t, (argTokens as ++ us).head? = some t → t.op = none := by
  cases as with
  | nil => exact hus
  | cons a as =>
    rintro t ⟨⟩
    rfl

theorem parseargs_append {as : List (List UInt8 × List (Op × List UInt8))} (hn : (argTokens as).length < n)
    (hargv : argv.length + as.length ≤ maxArgs - 1) (hus : Follow stops us) :
    parseargs n argv (argTokens as ++ us) = .ok ((argv ++ as.map Prod.fst, argNodes as), us) := by
  induction as generalizing n argv with
  | nil =>
    obtain ⟨n, rfl⟩ := Nat.exists_eq_add_one_of_ne_zero (Nat.ne_of_gt hn)
    rw [argTokens, List.flatMap_nil, List.nil_append, List.map_nil, List.append_nil]
    unfold parseargs
    split
    · rfl
    · next w ts =>
      exact absurd (hus _ rfl) (by simp [stops])
    · next t ts _ =>
      rw [if_pos (hus t rfl)]
      rfl
  | cons a as ih =>
    obtain ⟨n, rfl⟩ := Nat.exists_eq_add_one_of_ne_zero (Nat.ne_of_gt (Nat.lt_of_le_of_lt (Nat.zero_le _) hn))
    rw [argTokens, List.flatMap_cons, ← argTokens] at hn ⊢
    simp only [List.cons_append, List.length_cons, List.length_append, length_redirTokens] at hn
    rw [List.length_cons] at hargv
    have hop : ∀ t, us.head? = some t → t.op = none := op_of_follow hus (by decide)
    have hredirs : parseredirs n (redirTokens a.2 ++ (argTokens as ++ us)) = .ok (redirNodes a.2, argTokens as ++ us) :=
      parseredirs_append (by omega) (head_argTokens hop)
    have hargs : parseargs n (argv ++ [a.1]) (argTokens as ++ us) = _ :=
      ih (by omega) (by rw [List.length_append, List.length_singleton]; omega)
    unfold parseargs
    simp only [List.cons_append, List.append_assoc]
    rw [if_neg (by simp only [maxArgs] at hargv ⊢; omega),
      if_neg (by simp only [maxArgs, List.length_append, List.length_singleton] at hargv ⊢; omega), hredirs]
    change (parseargs n (argv ++ [a.1]) (argTokens as ++ us) >>= _) = _
    rw [hargs]
    simp [argNodes]

theorem parsebacks_append {k : ℕ} (hn : k < n) (hus : us.head? ≠ some .amp) :
    parsebacks n cmd (List.replicate k .amp ++ us) = .ok (Cmd.back^[k] cmd, us) := by
  induction k generalizing n cmd with
  | zero =>
    obtain ⟨n, rfl⟩ := Nat.exists_eq_add_one_of_ne_zero (Nat.ne_of_gt hn)
    unfold parsebacks
    rw [List.replicate_zero, List.nil_append]
    split
    · exact absurd rfl hus
    · rfl
  | succ k ih =>
    obtain ⟨n, rfl⟩ := Nat.exists_eq_add_one_of_ne_zero (Nat.ne_of_gt (Nat.lt_of_le_of_lt (Nat.zero_le _) hn))
    unfold parsebacks
    exact ih (Nat.lt_of_succ_lt_succ hn)

def follows : NonTerminal → List Token
  | .line => [.rpar]
  | .pipe => [.amp, .semi, .rpar]
  | .exec | .block => stops

def parse : NonTerminal → ℕ → List Token → Except Fault (Cmd (List UInt8) × List Token)
  | .line, n => parseline n
  | .pipe, n => parsepipe n
  | .exec, n => parseexec n
  | .block, n => parseblock n

def depth : NonTerminal → ℕ
  | .line => 4
  | .pipe => 3
  | .exec => 2
  | .block => 1

theorem Follow.mono {allowed allowed' : List Token} (h : Follow allowed us) (hsub : allowed ⊆ allowed') : Follow allowed' us :=
  fun t ht => hsub (h t ht)

theorem follow_cons {allowed : List Token} {t : Token} (ht : t ∈ allowed) : Follow allowed (t :: us) := by
  rintro u ⟨⟩
  exact ht

theorem follow_amps {k : ℕ} (h : Follow [.semi, .rpar] us) : Follow (follows .pipe) (List.replicate k .amp ++ us) := by
  cases k with
  | zero => exact h.mono (by decide)
  | succ k => exact follow_cons (by decide)

theorem Follow.cases {t : Token} (h : Follow [t] us) : us = [] ∨ ∃ vs, us = t :: vs := by
  cases us with
  | nil => exact .inl rfl
  | cons u us =>
    obtain rfl := List.mem_singleton.mp (h u rfl)
    exact .inr ⟨us, rfl⟩

theorem exists_fuel {nt : NonTerminal} {m : ℕ} (hn : m + depth nt ≤ n) : ∃ k, n = k + 1 := by
  cases nt <;> exact ⟨n - 1, by simp only [depth] at hn; omega⟩

theorem parse_append {nt : NonTerminal} (h : Derives nt ts cmd) (hn : 4 * ts.length + depth nt ≤ n)
    (hus : Follow (follows nt) us) : parse nt n (ts ++ us) = .ok (cmd, us) := by
  -- each case runs one call of the source on the tokens of a rule
  induction h generalizing n us with
  | @line ts c k h ih =>
    obtain ⟨n, rfl⟩ := exists_fuel hn
    simp only [depth, List.length_append, List.length_replicate] at hn
    have hpipe : parsepipe n (ts ++ (List.replicate k .amp ++ us)) = .ok (c, List.replicate k .amp ++ us) := by
      exact ih (by simp only [depth]; omega) (follow_amps (hus.mono (by decide)))
    have hbacks : parsebacks n c (List.replicate k .amp ++ us) = .ok (Cmd.back^[k] c, us) := by
      apply parsebacks_append (by omega)
      intro hamp
      exact absurd (hus _ hamp) (by decide)
    change parseline (n + 1) _ = _
    unfold parseline
    rw [List.append_assoc, hpipe]
    change (parsebacks n c (List.replicate k .amp ++ us) >>= _) = _
    rw [hbacks]
    rcases hus.cases with rfl | ⟨vs, rfl⟩ <;> rfl
  | @semi ts vs c d k h hd ih ihd =>
    obtain ⟨n, rfl⟩ := exists_fuel hn
    simp only [depth, List.length_append, List.length_replicate, List.length_cons] at hn
    have hpipe : parsepipe n (ts ++ (List.replicate k .amp ++ .semi :: (vs ++ us))) =
        .ok (c, List.replicate k .amp ++ .semi :: (vs ++ us)) := by
      exact ih (by simp only [depth]; omega) (follow_amps (follow_cons (by decide)))
    have hbacks : parsebacks n c (List.replicate k .amp ++ .semi :: (vs ++ us)) =
        .ok (Cmd.back^[k] c, .semi :: (vs ++ us)) := parsebacks_append (by omega) nofun
    have hline : parseline n (vs ++ us) = .ok (d, us) := by
      exact ihd (by simp only [depth]; omega) hus
    change parseline (n + 1) _ = _
    unfold parseline
    rw [List.append_assoc, List.append_assoc, List.cons_append, hpipe]
    change (parsebacks n c (List.replicate k .amp ++ .semi :: (vs ++ us)) >>= _) = _
    rw [hbacks]
    change (parseline n (vs ++ us) >>= _) = _
    rw [hline]
    rfl
  | @pipe ts c h ih =>
    obtain ⟨n, rfl⟩ := exists_fuel hn
    simp only [depth] at hn
    have hexec : parseexec n (ts ++ us) = .ok (c, us) := by
      exact ih (by simp only [depth]; omega) (hus.mono (by decide))
    change parsepipe (n + 1) _ = _
    unfold parsepipe
    rw [hexec]
    change (match us with
      | .bar :: us => _
      | us => _) = _
    split
    · exact absurd (hus _ rfl) (by decide)
    · rfl
  | @bar ts vs c d h hd ih ihd =>
    obtain ⟨n, rfl⟩ := exists_fuel hn
    simp only [depth, List.length_append, List.length_cons] at hn
    have hexec : parseexec n (ts ++ .bar :: (vs ++ us)) = .ok (c, .bar :: (vs ++ us)) := by
      exact ih (by simp only [depth]; omega) (follow_cons (by decide))
    have hpipe : parsepipe n (vs ++ us) = .ok (d, us) := by
      exact ihd (by simp only [depth]; omega) hus
    change parsepipe (n + 1) _ = _
    unfold parsepipe
    rw [List.append_assoc, List.cons_append, hexec]
    change (parsepipe n (vs ++ us) >>= _) = _
    rw [hpipe]
    rfl
  | @exec ts c h ih =>
    obtain ⟨n, rfl⟩ := exists_fuel hn
    simp only [depth] at hn
    have hblock : parseblock n (ts ++ us) = .ok (c, us) := by
      exact ih (by simp only [depth]; omega) hus
    cases h
    exact hblock
  | words os as h =>
    obtain ⟨n, rfl⟩ := exists_fuel hn
    simp only [depth, List.length_append, length_redirTokens] at hn
    have hop : ∀ t, us.head? = some t → t.op = none := op_of_follow hus (by decide)
    have hredirs : parseredirs n (redirTokens os ++ (argTokens as ++ us)) = .ok (redirNodes os, argTokens as ++ us) :=
      parseredirs_append (by omega) (head_argTokens hop)
    have hargs : parseargs n [] (argTokens as ++ us) = .ok ((as.map Prod.fst, argNodes as), us) :=
      parseargs_append (by omega) (by rw [List.length_nil, Nat.zero_add]; exact h) hus
    have hlpar : ∀ vs, redirTokens os ++ (argTokens as ++ us) ≠ .lpar :: vs := by
      intro vs heq
      cases os with
      | nil =>
        cases as with
        | nil => exact absurd (hus .lpar (by rw [← List.head?_cons]; exact congrArg List.head? heq)) (by decide)
        | cons a as => cases heq
      | cons o os =>
        have hhead : o.1.token = .lpar := (List.cons.inj heq).1
        cases ho : o.1 <;> rw [ho] at hhead <;> cases hhead
    change parseexec (n + 1) _ = _
    unfold parseexec
    rw [List.append_assoc]
    split
    · next heq => exact absurd heq (hlpar _)
    · rw [hredirs]
      change (parseargs n [] (argTokens as ++ us) >>= _) = _
      rw [hargs]
      change (if (as.map Prod.fst).length ≥ maxArgs then _ else _) = _
      rw [if_neg (by rw [List.length_map]; simp only [maxArgs] at h ⊢; omega)]
      rfl
  | @block ts c h os ih =>
    obtain ⟨n, rfl⟩ := exists_fuel hn
    simp only [depth, List.length_append, List.length_cons, length_redirTokens] at hn
    have hline : parseline n (ts ++ .rpar :: (redirTokens os ++ us)) = .ok (c, .rpar :: (redirTokens os ++ us)) := by
      exact ih (by simp only [depth]; omega) (follow_cons (by decide))
    have hredirs : parseredirs n (redirTokens os ++ us) = .ok (redirNodes os, us) :=
      parseredirs_append (by omega) (op_of_follow hus (by decide))
    change parseblock (n + 1) (.lpar :: (ts ++ .rpar :: redirTokens os) ++ us) = _
    unfold parseblock
    rw [List.cons_append, List.append_assoc, List.cons_append]
    change (parseline n (ts ++ .rpar :: (redirTokens os ++ us)) >>= _) = _
    rw [hline]
    change (parseredirs n (redirTokens os ++ us) >>= _) = _
    rw [hredirs]
    rfl

end Tokens

end Xv6.Shell
