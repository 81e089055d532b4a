import Asm6502.Assembly.Basic

/-!
# Leaving debugger marks

Breakpoints and watches, which only the final pass leaves behind.
-/

namespace Asm6502.Assembly

/-- Leaves a breakpoint in the final pass. -/
def breakpoint (kind : BreakpointKind) (params : String) : Assembly Unit :=
  modify (fun s =>
    if s.pass.isFinal then { s with breakpoints := s.breakpoints ++ [⟨kind, params⟩] } else s)

/-- Stops where the cursor is. -/
def breakHere : Assembly Unit := do
  breakpoint .execution (← position).hexText

/-- Stops on a condition on a cell. -/
def breakOnMemory (address : Number) (condition : String) : Assembly Unit :=
  breakpoint .memory (address.hexText ++ condition)

/-- Stops at a line of the screen. -/
def breakOnRaster (line : Number) : Assembly Unit :=
  breakpoint .raster line.text

/-- What is watched. -/
inductive WatchTarget where
  | label (name : String)
  | address (address : Number)
  /-- Where the cursor is. -/
  | here
  deriving DecidableEq

/-- Watches a cell in the final pass. -/
def watch (target : WatchTarget) : Assembly Unit := do
  let s ← get
  if s.pass.isFinal then
    let entry ← match target with
      | .label name => do
        let v ← resolve name
        pure (Watch.mk name v.amount.hexText)
      | .address a => pure (Watch.mk ("addr_" ++ a.hexText) a.hexText)
      | .here => pure (Watch.mk ("addr_" ++ s.cursor.position.hexText) s.cursor.position.hexText)
    modify (fun s => { s with watches := s.watches ++ [entry] })

end Asm6502.Assembly
