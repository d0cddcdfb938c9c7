import Xv6.Shell.Lexer

namespace Xv6.Shell

def maxArgs : ℕ := 10

structure Span where
  q : List UInt8
  eq : List UInt8

def Lexed.span (l : Lexed) : Span := ⟨l.q, l.eq⟩

inductive Cmd (α : Type)
  | exec (argv : List α)
  | redir (cmd : Cmd α) (file : α) (mode fd : ℕ)
  | pipe (left right : Cmd α)
  | list (left right : Cmd α)
  | back (cmd : Cmd α)

def Cmd.map {α β : Type} (f : α → β) : Cmd α → Cmd β
  | exec argv => exec (argv.map f)
  | redir cmd file mode fd => redir (cmd.map f) (f file) mode fd
  | pipe left right => pipe (left.map f) (right.map f)
  | list left right => list (left.map f) (right.map f)
  | back cmd => back (cmd.map f)

structure Redir (α : Type) where
  file : α
  mode : ℕ
  fd : ℕ

def Cmd.redirs {α : Type} (cmd : Cmd α) (rs : List (Redir α)) : Cmd α :=
  rs.foldl (fun cmd r => .redir cmd r.file r.mode r.fd) cmd

inductive Fault
  | panic (msg : String)
  | overflow
  | fuel

def redirNode {α : Type} (tok : UInt8) (file : α) : List (Redir α) :=
  if tok = 60 then [⟨file, 0x000, 0⟩]
  else if tok = 62 then [⟨file, 0x601, 1⟩]
  else if tok = 43 then [⟨file, 0x201, 1⟩]
  else []

def parseredirs : ℕ → List UInt8 → Except Fault (List (Redir Span) × List UInt8)
  | 0, _ => .error .fuel
  | n + 1, s =>
    if (peek s [60, 62]).1 then
      let tok := gettoken (peek s [60, 62]).2
      let file := gettoken tok.s
      if file.ret ≠ 97 then .error (.panic "missing file for redirection")
      else do
        let r ← parseredirs n file.s
        return (redirNode tok.ret file.span ++ r.1, r.2)
    else .ok ([], (peek s [60, 62]).2)

def parseargs : ℕ → List Span → List UInt8 → Except Fault ((List Span × List (Redir Span)) × List UInt8)
  | 0, _, _ => .error .fuel
  | n + 1, argv, s =>
    if (peek s [124, 41, 38, 59]).1 then .ok ((argv, []), (peek s [124, 41, 38, 59]).2)
    else
      let tok := gettoken (peek s [124, 41, 38, 59]).2
      if tok.ret = 0 then .ok ((argv, []), tok.s)
      else if tok.ret ≠ 97 then .error (.panic "syntax")
      else if argv.length ≥ maxArgs then .error .overflow
      else if (argv ++ [tok.span]).length ≥ maxArgs then .error (.panic "too many args")
      else do
        let r ← parseredirs n tok.s
        let a ← parseargs n (argv ++ [tok.span]) r.2
        return ((a.1.1, r.1 ++ a.1.2), a.2)

def parsebacks {α : Type} : ℕ → Cmd α → List UInt8 → Except Fault (Cmd α × List UInt8)
  | 0, _, _ => .error .fuel
  | n + 1, cmd, s =>
    if (peek s [38]).1 then parsebacks n (.back cmd) (gettoken (peek s [38]).2).s
    else .ok (cmd, (peek s [38]).2)

mutual

def parseline : ℕ → List UInt8 → Except Fault (Cmd Span × List UInt8)
  | 0, _ => .error .fuel
  | n + 1, s => do
    let c ← parsepipe n s
    let b ← parsebacks n c.1 c.2
    if (peek b.2 [59]).1 then
      let r ← parseline n (gettoken (peek b.2 [59]).2).s
      return (.list b.1 r.1, r.2)
    else return (b.1, (peek b.2 [59]).2)

def parsepipe : ℕ → List UInt8 → Except Fault (Cmd Span × List UInt8)
  | 0, _ => .error .fuel
  | n + 1, s => do
    let c ← parseexec n s
    if (peek c.2 [124]).1 then
      let r ← parsepipe n (gettoken (peek c.2 [124]).2).s
      return (.pipe c.1 r.1, r.2)
    else return (c.1, (peek c.2 [124]).2)

def parseexec : ℕ → List UInt8 → Except Fault (Cmd Span × List UInt8)
  | 0, _ => .error .fuel
  | n + 1, s =>
    if (peek s [40]).1 then parseblock n (peek s [40]).2
    else do
      let r ← parseredirs n (peek s [40]).2
      let a ← parseargs n [] r.2
      if a.1.1.length ≥ maxArgs then .error .overflow
      else return ((Cmd.exec a.1.1).redirs (r.1 ++ a.1.2), a.2)

def parseblock : ℕ → List UInt8 → Except Fault (Cmd Span × List UInt8)
  | 0, _ => .error .fuel
  | n + 1, s =>
    if !(peek s [40]).1 then .error (.panic "parseblock")
    else do
      let c ← parseline n (gettoken (peek s [40]).2).s
      if !(peek c.2 [41]).1 then .error (.panic "syntax - missing )")
      else
        let r ← parseredirs n (gettoken (peek c.2 [41]).2).s
        return (c.1.redirs r.1, r.2)

end

def memory (s : List UInt8) : ℕ → UInt8 := fun d => (s.drop (s.length - d)).headD 0

def Span.terminate (mem : ℕ → UInt8) (sp : Span) : ℕ → UInt8 := Function.update mem sp.eq.length 0

def nulterminate : Cmd Span → (ℕ → UInt8) → ℕ → UInt8
  | .exec argv, mem => argv.foldl Span.terminate mem
  | .redir cmd file _ _, mem => file.terminate (nulterminate cmd mem)
  | .pipe left right, mem => nulterminate right (nulterminate left mem)
  | .list left right, mem => nulterminate right (nulterminate left mem)
  | .back cmd, mem => nulterminate cmd mem

def parsecmd (s : List UInt8) : Except Fault (Cmd Span × (ℕ → UInt8)) := do
  let c ← parseline (4 * s.length + 4) s
  if (peek c.2 []).2 ≠ [] then .error (.panic "syntax")
  else return (c.1, nulterminate c.1 (memory s))

def cstring (mem : ℕ → UInt8) : ℕ → List UInt8
  | 0 => []
  | d + 1 => if mem (d + 1) = 0 then [] else mem (d + 1) :: cstring mem d

def Cmd.strings (mem : ℕ → UInt8) (cmd : Cmd Span) : Cmd (List UInt8) := cmd.map (fun sp => cstring mem sp.q.length)

end Xv6.Shell
