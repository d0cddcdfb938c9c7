import Xv6.Kernel.UserMemory

namespace Xv6.Kernel

open Lib Vm Prog

/-! ### Where `vma_fault` ends -/

inductive FaultEnd
  | noVma
  | denied
  | present
  | noMemory
  | unread
  | unmapped
  | populated
  deriving DecidableEq

def FaultEnd.value (e : FaultEnd) : ℤ := if e = .populated then 0 else -1

def FaultEnd.slept (e : FaultEnd) : Bool := e = .unread || e = .unmapped || e = .populated

def FaultEnd.starved (e : FaultEnd) : Bool := e = .noMemory || e = .unread || e = .unmapped

def vmaFaultEnd (sys : Sys) (faultva cause : ℕ) : KM FaultEnd := do
  let p ← myproc
  match findVma p.vmas (fun v => v.addr ≤ faultva && faultva < (v.addr + v.length) % 2 ^ 64) with
  | none => return .noVma
  | some (_, v) =>
    if v.denies cause then return .denied
    else
      let va := pgRoundDown faultva
      let found ← walk .own va false
      let pte ← pteAt .own va
      if found && pte.isSome then return .present
      else
        match ← kalloc with
        | none => return .noMemory
        | some mem =>
          fillPage mem (fun _ => 0)
          let ip ← .read (fun x => (x.1.ftable v.file).ip)
          fsCall (Fs.ilock sys.sb ip)
          let (n, data) ← fsCall (Fs.readi sys.sb ip (fun _ => false) (v.fileOff va) pgSize)
          storeBytes mem 0 data.length (fun i => data.getD i 0)
          if n < 0 then
            kfree sys mem (·.dropPage mem)
            return .unread
          else
            let mapped ← mappages .own va pgSize mem v.pte
            if mapped then return .populated
            else
              kfree sys mem (·.dropPage mem)
              return .unmapped

theorem bind_ext {α β : Type} {m : KM α} {k k' : α → KM β} (h : ∀ a, k a = k' a) : m >>= k = m >>= k' := by
  rw [funext h]

theorem vmaFault_eq (sys : Sys) (a cause : ℕ) :
    vmaFault sys a cause = vmaFaultEnd sys a cause >>= fun e => pure e.value := by
  unfold vmaFault vmaFaultEnd
  rw [bind_bind]
  apply bind_ext
  intro p
  cases findVma p.vmas (fun v => v.addr ≤ a && a < (v.addr + v.length) % 2 ^ 64) with
  | none => rfl
  | some kv =>
    dsimp only
    by_cases hden : kv.2.denies cause = true
    · rw [if_pos hden, if_pos hden]
      rfl
    rw [if_neg hden, if_neg hden, bind_bind]
    apply bind_ext
    intro found
    rw [bind_bind]
    apply bind_ext
    intro pte
    by_cases hres : (found && pte.isSome) = true
    · rw [if_pos hres, if_pos hres]
      rfl
    rw [if_neg hres, if_neg hres, bind_bind]
    apply bind_ext
    intro mem
    cases mem with
    | none => rfl
    | some mem =>
      simp only [bind_bind]
      refine bind_ext fun _ => bind_ext fun ip => bind_ext fun _ => bind_ext fun r => bind_ext fun _ => ?_
      by_cases hn : r.1 < 0
      · rw [if_pos hn, if_pos hn, bind_bind]
        rfl
      rw [if_neg hn, if_neg hn, bind_bind]
      apply bind_ext
      intro mapped
      cases mapped with
      | true => rfl
      | false =>
        rw [if_neg Bool.false_ne_true, if_neg Bool.false_ne_true, bind_bind]
        rfl

/-! ### `usertrap` -/

def devintr (scause : ℕ) : ℕ :=
  if scause.testBit 63 && scause % 256 = 9 then 1
  else if scause = 2 ^ 63 + 1 then 2
  else 0

structure Trap where
  fault : Option FaultEnd
  whichDev : ℕ
  killed : Bool
  deriving DecidableEq

def interruptOrKill (fault : Option FaultEnd) (killed : Bool) (scause : ℕ) : Trap :=
  if devintr scause ≠ 0 then ⟨fault, devintr scause, killed⟩ else ⟨fault, 0, true⟩

def usertrap (sys : Sys) (syscall : KM Unit) (killed : Bool) (scause stval later : ℕ) : KM Trap :=
  if scause = 8 then
    if killed then return ⟨none, 0, true⟩
    else do
      syscall
      return ⟨none, 0, killed⟩
  else if scause = 12 ∨ scause = 13 ∨ scause = 15 then do
    let e ← vmaFaultEnd sys stval scause
    if e.value = 0 then return ⟨some e, 0, killed⟩
    else return interruptOrKill (some e) killed (if e.slept then later else scause)
  else return interruptOrKill none killed scause

theorem usertrap_fault {scause : ℕ} (sys : Sys) (syscall : KM Unit) (killed : Bool) (stval later : ℕ)
    (h : scause = 12 ∨ scause = 13 ∨ scause = 15) :
    usertrap sys syscall killed scause stval later = vmaFaultEnd sys stval scause >>= fun e =>
      pure (if e.value = 0 then ⟨some e, 0, killed⟩ else interruptOrKill (some e) killed (if e.slept then later else scause)) := by
  have h8 : scause ≠ 8 := by omega
  rw [usertrap, if_neg h8, if_pos h]
  apply bind_ext
  intro e
  split_ifs <;> rfl

theorem devintr_fault {scause : ℕ} (h : scause = 12 ∨ scause = 13 ∨ scause = 15) : devintr scause = 0 := by
  rcases h with rfl | rfl | rfl <;> decide

theorem interruptOrKill_of_zero {fault : Option FaultEnd} {killed : Bool} {scause : ℕ} (h : devintr scause = 0) :
    interruptOrKill fault killed scause = ⟨fault, 0, true⟩ := by
  rw [interruptOrKill, if_neg (fun hne => hne h)]

section Example

def lastPage : KState := ({ untouchedPage.1 with freelist := [524462] }, untouchedPage.2)

end Example

end Xv6.Kernel
