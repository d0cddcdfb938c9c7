import Xv6.Shell.Words

namespace Xv6.Shell

def nOfile : ℕ := 16

inductive File (α : Type)
  | inherited (fd : ℕ)
  | named (file : α) (mode : ℕ)
  | pipeRead
  | pipeWrite

abbrev Fds (α : Type) := ℕ → Option (File α)

inductive Trace (α : Type)
  | opened (file : α) (mode fd : ℕ) (rest : Trace α)
  | failed (file : α)
  | exec (argv : List α) (fds : Fds α)
  | fork (child rest : Trace α)
  | wait (rest : Trace α)
  | exit (status : ℕ)

structure World (α : Type) where
  opens : α → ℕ → Bool
  pipes : Bool
  forks : Bool

section

variable {α : Type}

def fdalloc (fds : Fds α) : Option ℕ := (List.range nOfile).find? (fun d => (fds d).isNone)

def close (fds : Fds α) (d : ℕ) : Fds α := Function.update fds d none

def dup (fds : Fds α) (d : ℕ) : Fds α :=
  match fdalloc fds with
  | none => fds
  | some e => Function.update fds e (fds d)

def runRedir (W : World α) (run : Fds α → Trace α) (file : α) (mode fd : ℕ) (fds : Fds α) : Trace α :=
  match fdalloc (close fds fd) with
  | none => .failed file
  | some d =>
    if W.opens file mode then .opened file mode d (run (Function.update (close fds fd) d (some (.named file mode))))
    else .failed file

def runList (W : World α) (left right : Fds α → Trace α) (fds : Fds α) : Trace α :=
  if W.forks then .fork (left fds) (.wait (right fds)) else .exit 1

def runPipe (W : World α) (left right : Fds α → Trace α) (fds : Fds α) : Trace α :=
  match fdalloc fds with
  | none => .exit 1
  | some p₀ =>
    match fdalloc (Function.update fds p₀ (some .pipeRead)) with
    | none => .exit 1
    | some p₁ =>
      let fds := Function.update (Function.update fds p₀ (some .pipeRead)) p₁ (some .pipeWrite)
      if W.pipes then
        if W.forks then
          .fork (left (close (close (dup (close fds 1) p₁) p₀) p₁))
            (.fork (right (close (close (dup (close fds 0) p₀) p₀) p₁)) (.wait (.wait (.exit 0))))
        else .exit 1
      else .exit 1

def runBack (W : World α) (run : Fds α → Trace α) (fds : Fds α) : Trace α :=
  if W.forks then .fork (run fds) (.exit 0) else .exit 1

def runcmd (W : World α) : Cmd α → Fds α → Trace α
  | .exec argv => fun fds => if argv.isEmpty then .exit 1 else .exec argv fds
  | .redir cmd file mode fd => runRedir W (runcmd W cmd) file mode fd
  | .list left right => runList W (runcmd W left) (runcmd W right)
  | .pipe left right => runPipe W (runcmd W left) (runcmd W right)
  | .back cmd => runBack W (runcmd W cmd)

end

/-! ### Command lines with their redirections in the order of the text -/

inductive Text
  | words (os : List (Op × List UInt8)) (as : List (List UInt8 × List (Op × List UInt8)))
  | block (t : Text) (os : List (Op × List UInt8))
  | pipe (left right : Text)
  | list (left right : Text)
  | back (t : Text)

namespace Text

def tokens : Text → List Token
  | words os as => redirTokens os ++ argTokens as
  | block t os => .lpar :: (t.tokens ++ .rpar :: redirTokens os)
  | pipe left right => left.tokens ++ .bar :: right.tokens
  | list left right => left.tokens ++ .semi :: right.tokens
  | back t => t.tokens ++ [.amp]

def cmd : Text → Cmd (List UInt8)
  | words os as => (Cmd.exec (as.map Prod.fst)).redirs (redirNodes os ++ argNodes as)
  | block t os => t.cmd.redirs (redirNodes os)
  | pipe left right => .pipe left.cmd right.cmd
  | list left right => .list left.cmd right.cmd
  | back t => .back t.cmd

end Text

def performs {α : Type} (W : World α) (run : Fds α → Trace α) : List (Redir α) → Fds α → Trace α
  | [] => run
  | r :: rs => fun fds =>
    if W.opens r.file r.mode then
      .opened r.file r.mode r.fd (performs W run rs (Function.update fds r.fd (some (.named r.file r.mode))))
    else .failed r.file

namespace Text

def run (W : World (List UInt8)) : Text → Fds (List UInt8) → Trace (List UInt8)
  | words os as => performs W (runcmd W (.exec (as.map Prod.fst))) (redirNodes os ++ argNodes as)
  | block t os => performs W (t.run W) (redirNodes os)
  | pipe left right => runPipe W (left.run W) (right.run W)
  | list left right => runList W (left.run W) (right.run W)
  | back t => runBack W (t.run W)

def Single : Text → Prop
  | words os as => (redirNodes os ++ argNodes as).length ≤ 1
  | block t os => t.Single ∧ (redirNodes os).length ≤ 1
  | pipe left right => left.Single ∧ right.Single
  | list left right => left.Single ∧ right.Single
  | back t => t.Single

theorem iterate_back (t : Text) (k : ℕ) : (back^[k] t).tokens = t.tokens ++ List.replicate k .amp ∧
    (back^[k] t).cmd = Cmd.back^[k] t.cmd := by
  induction k generalizing t with
  | zero => exact ⟨(List.append_nil _).symm, rfl⟩
  | succ k ih =>
    obtain ⟨htokens, hcmd⟩ := ih t.back
    rw [Function.iterate_succ_apply, Function.iterate_succ_apply, htokens, hcmd]
    refine ⟨?_, rfl⟩
    rw [tokens, List.append_assoc, List.replicate_succ]
    rfl

theorem of_derives {nt : NonTerminal} {ts : List Token} {c : Cmd (List UInt8)} (h : Derives nt ts c) :
    ∃ t : Text, t.tokens = ts ∧ t.cmd = c := by
  induction h with
  | line k _ ih =>
    obtain ⟨t, rfl, rfl⟩ := ih
    exact ⟨back^[k] t, iterate_back t k⟩
  | semi k _ _ ih ihd =>
    obtain ⟨t, rfl, rfl⟩ := ih
    obtain ⟨u, rfl, rfl⟩ := ihd
    obtain ⟨htokens, hcmd⟩ := iterate_back t k
    refine ⟨list (back^[k] t) u, ?_, ?_⟩
    · rw [tokens, htokens, List.append_assoc]
    · rw [cmd, hcmd]
  | pipe _ ih | exec _ ih => exact ih
  | bar _ _ ih ihd =>
    obtain ⟨t, rfl, rfl⟩ := ih
    obtain ⟨u, rfl, rfl⟩ := ihd
    exact ⟨pipe t u, rfl, rfl⟩
  | words os as _ => exact ⟨words os as, rfl, rfl⟩
  | block _ os ih =>
    obtain ⟨t, rfl, rfl⟩ := ih
    exact ⟨block t os, rfl, rfl⟩

end Text

/-! ### Descriptors -/

section

variable {α : Type} {W : World α} {run run' left left' right right' : Fds α → Trace α} {fds : Fds α} {d e : ℕ} {f : File α}

structure Standard (fds : Fds α) : Prop where
  input : (fds 0).isSome = true
  output : (fds 1).isSome = true

theorem Standard.update (h : Standard fds) : Standard (Function.update fds d (some f)) := by
  constructor
  · rw [Function.update_apply]
    split_ifs
    · rfl
    · exact h.input
  · rw [Function.update_apply]
    split_ifs
    · rfl
    · exact h.output

theorem Standard.close (h : Standard fds) (hd : 2 ≤ d) : Standard (close fds d) := by
  constructor
  · rw [Shell.close, Function.update_of_ne (by omega)]
    exact h.input
  · rw [Shell.close, Function.update_of_ne (by omega)]
    exact h.output

theorem fdalloc_range : List.range nOfile = 0 :: 1 :: (List.range nOfile).drop 2 := rfl

theorem fdalloc_close_zero (fds : Fds α) : fdalloc (close fds 0) = some 0 := by
  have hfree : (close fds 0 0).isNone = true := by rw [close, Function.update_self]; rfl
  rw [fdalloc, fdalloc_range]
  exact List.find?_cons_of_pos (p := fun d => (close fds 0 d).isNone) hfree

theorem fdalloc_close_one (h : (fds 0).isSome = true) : fdalloc (close fds 1) = some 1 := by
  have hopen : ¬(close fds 1 0).isNone = true := by
    rw [close, Function.update_of_ne Nat.zero_ne_one, Option.isNone_iff_eq_none, ← Option.not_isSome_iff_eq_none, not_not]
    exact h
  have hfree : (close fds 1 1).isNone = true := by rw [close, Function.update_self]; rfl
  rw [fdalloc, fdalloc_range, List.find?_cons_of_neg (p := fun d => (close fds 1 d).isNone) hopen]
  exact List.find?_cons_of_pos (p := fun d => (close fds 1 d).isNone) hfree

theorem fdalloc_free (h : fdalloc fds = some d) : fds d = none :=
  Option.isNone_iff_eq_none.mp (List.find?_some (p := fun d => (fds d).isNone) h)

theorem Standard.le_fdalloc (h : Standard fds) (hd : fdalloc fds = some d) : 2 ≤ d := by
  have hfree := fdalloc_free hd
  have hin := h.input
  have hout := h.output
  by_contra hlt
  have hcases : d = 0 ∨ d = 1 := by omega
  rcases hcases with rfl | rfl
  · rw [hfree] at hin
    cases hin
  · rw [hfree] at hout
    cases hout

theorem runRedir_eq (h : Standard fds) (r : Redir α) (hr : r.fd ≤ 1) :
    runRedir W run r.file r.mode r.fd fds = performs W run [r] fds := by
  have halloc : fdalloc (close fds r.fd) = some r.fd := by
    have hcases : r.fd = 0 ∨ r.fd = 1 := by omega
    rcases hcases with hfd | hfd
    · rw [hfd]
      exact fdalloc_close_zero fds
    · rw [hfd]
      exact fdalloc_close_one h.input
  rw [runRedir, halloc]
  dsimp only [performs]
  rw [close, Function.update_idem]

theorem performs_append (rs rs' : List (Redir α)) : performs W run (rs ++ rs') = performs W (performs W run rs') rs := by
  induction rs with
  | nil => rfl
  | cons r rs ih =>
    rw [List.cons_append, performs, performs, ih]

theorem performs_congr (hrun : ∀ fds, Standard fds → run fds = run' fds) (rs : List (Redir α)) (h : Standard fds) :
    performs W run rs fds = performs W run' rs fds := by
  induction rs generalizing fds with
  | nil => exact hrun fds h
  | cons r rs ih =>
    dsimp only [performs]
    rw [ih h.update]

theorem runcmd_redirs (c : Cmd α) (rs : List (Redir α)) (hrs : ∀ r ∈ rs, r.fd ≤ 1) (h : Standard fds) :
    runcmd W (c.redirs rs) fds = performs W (runcmd W c) rs.reverse fds := by
  induction rs generalizing c fds with
  | nil => rfl
  | cons r rs ih =>
    have htail := ih (.redir c r.file r.mode r.fd) (fun r' hr' => hrs r' (List.mem_cons_of_mem _ hr')) h
    rw [List.reverse_cons, performs_append]
    apply htail.trans
    apply performs_congr _ _ h
    intro fds' h'
    exact runRedir_eq h' r (hrs r List.mem_cons_self)

theorem dup_eq (hd : fdalloc fds = some d) : dup fds e = Function.update fds d (fds e) := by
  rw [dup, hd]

theorem runPipe_congr (hl : ∀ fds, Standard fds → left fds = left' fds) (hr : ∀ fds, Standard fds → right fds = right' fds) (h : Standard fds) :
    runPipe W left right fds = runPipe W left' right' fds := by
  unfold runPipe
  cases hp₀ : fdalloc fds with
  | none => rfl
  | some p₀ =>
    dsimp only
    have hlo₀ := h.le_fdalloc hp₀
    have h₀ : Standard (Function.update fds p₀ (some .pipeRead)) := h.update
    cases hp₁ : fdalloc (Function.update fds p₀ (some .pipeRead)) with
    | none => rfl
    | some p₁ =>
      dsimp only
      have hlo₁ := h₀.le_fdalloc hp₁
      have hne : p₀ ≠ p₁ := by
        intro heq
        have hfree := fdalloc_free hp₁
        rw [← heq, Function.update_self] at hfree
        cases hfree
      generalize hfds : Function.update (Function.update fds p₀ (some .pipeRead)) p₁ (some .pipeWrite) = fds₁
      have h₁ : Standard fds₁ := hfds ▸ h₀.update
      have hleft : Standard (close (close (dup (close fds₁ 1) p₁) p₀) p₁) := by
        have hend : close fds₁ 1 p₁ = some .pipeWrite := by
          rw [close, Function.update_of_ne (by omega), ← hfds, Function.update_self]
        rw [dup_eq (fdalloc_close_one h₁.input), hend, close, close, close, Function.update_idem]
        exact (h₁.update.close hlo₀).close hlo₁
      have hright : Standard (close (close (dup (close fds₁ 0) p₀) p₀) p₁) := by
        have hend : close fds₁ 0 p₀ = some .pipeRead := by
          rw [close, Function.update_of_ne (by omega), ← hfds, Function.update_of_ne hne, Function.update_self]
        rw [dup_eq (fdalloc_close_zero fds₁), hend, close, close, close, Function.update_idem]
        exact (h₁.update.close hlo₀).close hlo₁
      rw [hl _ hleft, hr _ hright]

theorem runList_congr (hl : ∀ fds, Standard fds → left fds = left' fds) (hr : ∀ fds, Standard fds → right fds = right' fds) (h : Standard fds) :
    runList W left right fds = runList W left' right' fds := by
  rw [runList, runList, hl fds h, hr fds h]

theorem runBack_congr (hrun : ∀ fds, Standard fds → run fds = run' fds) (h : Standard fds) : runBack W run fds = runBack W run' fds := by
  rw [runBack, runBack, hrun fds h]

end

/-! ### The order of the redirections -/

variable {W : World (List UInt8)} {fds : Fds (List UInt8)} {s : List UInt8}

theorem fd_redir (o : Op) (file : List UInt8) : (o.redir file).fd ≤ 1 := by
  cases o
  · exact Nat.zero_le _
  · exact Nat.le_refl _
  · exact Nat.le_refl _

theorem fd_redirNodes (os : List (Op × List UInt8)) : ∀ r ∈ redirNodes os, r.fd ≤ 1 := by
  intro r hr
  obtain ⟨o, -, rfl⟩ := List.mem_map.mp hr
  exact fd_redir o.1 o.2

theorem fd_argNodes (as : List (List UInt8 × List (Op × List UInt8))) : ∀ r ∈ argNodes as, r.fd ≤ 1 := by
  intro r hr
  obtain ⟨a, -, hr⟩ := List.mem_flatMap.mp hr
  exact fd_redirNodes a.2 r hr

theorem reverse_of_length_le_one {α : Type} {l : List α} (h : l.length ≤ 1) : l.reverse = l := by
  cases l with
  | nil => rfl
  | cons a l =>
    have hnil : l = [] := List.eq_nil_of_length_eq_zero (by rw [List.length_cons] at h; omega)
    rw [hnil]
    rfl

theorem Text.runcmd_cmd (t : Text) (ht : t.Single) (h : Standard fds) : runcmd W t.cmd fds = t.run W fds := by
  induction t generalizing fds with
  | words os as =>
    have hrs : ∀ r ∈ redirNodes os ++ argNodes as, r.fd ≤ 1 := by
      intro r hr
      exact (List.mem_append.mp hr).elim (fd_redirNodes os r) (fd_argNodes as r)
    rw [cmd, runcmd_redirs _ _ hrs h, reverse_of_length_le_one ht, run]
  | block t os ih =>
    rw [cmd, runcmd_redirs _ _ (fd_redirNodes os) h, reverse_of_length_le_one ht.2, run]
    exact performs_congr (fun fds h => ih ht.1 h) _ h
  | pipe left right ihl ihr => exact runPipe_congr (fun fds h => ihl ht.1 h) (fun fds h => ihr ht.2 h) h
  | list left right ihl ihr => exact runList_congr (fun fds h => ihl ht.1 h) (fun fds h => ihr ht.2 h) h
  | back t ih => exact runBack_congr (fun fds h => ih ht h) h

/-- If no command or block of a line has more than one redirection, running the parsed line is running it with the
redirections from left to right. -/
theorem redirections_in_order {c : Cmd Span} {mem : ℕ → UInt8} (hs : 0 ∉ s) (h : parsecmd s = .ok (c, mem)) :
    (∃ t : Text, t.tokens = tokens s ∧ t.cmd = c.strings mem) ∧
    ∀ t : Text, t.tokens = tokens s → t.cmd = c.strings mem → t.Single →
      ∀ W fds, Standard fds → runcmd W (c.strings mem) fds = t.run W fds := by
  obtain ⟨rfl, d, hc, hd⟩ := parsecmd_ok hs h
  rw [strings_nulterminate hs hc]
  refine ⟨Text.of_derives hd, ?_⟩
  rintro t - rfl ht W fds hstd
  exact t.runcmd_cmd ht hstd

def console : Fds (List UInt8) := fun d => if d < 3 then some (.inherited d) else none

def working : World (List UInt8) := ⟨fun _ _ => true, true, true⟩

theorem redirections_in_order_one : ∃ c mem, parsecmd [120, 60, 97] = .ok (c, mem) ∧
    runcmd working (c.strings mem) console = (Text.words [] [([120], [(.read, [97])])]).run working console := by
  have hex : ∃ c mem, parsecmd [120, 60, 97] = .ok (c, mem) ∧
      c.strings mem = (Text.words [] [([120], [(.read, [97])])]).cmd := ⟨_, _, rfl, rfl⟩
  obtain ⟨c, mem, hparse, hstrings⟩ := hex
  have htokens : (Text.words [] [([120], [(.read, [97])])]).tokens = tokens [120, 60, 97] := by
    simp [Text.tokens, redirTokens, argTokens, Op.token, tokens, strchr, whitespace, symbol, wordByte, symbols]
  obtain ⟨-, hrun⟩ := redirections_in_order (by decide) hparse
  exact ⟨c, mem, hparse, hrun _ htokens hstrings.symm (Nat.le_refl 1) working console ⟨rfl, rfl⟩⟩

theorem redirections_reversed : ∃ c mem fds fds', parsecmd [120, 62, 97, 62, 98] = .ok (c, mem) ∧
    runcmd working (c.strings mem) console = .opened [98] 0x601 1 (.opened [97] 0x601 1 (.exec [[120]] fds)) ∧
    fds 1 = some (.named [97] 0x601) ∧
    (Text.words [] [([120], [(.write, [97]), (.write, [98])])]).cmd = c.strings mem ∧
    (Text.words [] [([120], [(.write, [97]), (.write, [98])])]).run working console =
      .opened [97] 0x601 1 (.opened [98] 0x601 1 (.exec [[120]] fds')) ∧
    fds' 1 = some (.named [98] 0x601) :=
  ⟨_, _, _, _, rfl, rfl, rfl, rfl, rfl, rfl⟩

end Xv6.Shell
