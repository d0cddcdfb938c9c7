import Xv6.Mkfs.Layout

namespace Xv6.Mkfs

open Fs Lib Hoare Transition

variable {files : List File} {image : ℕ → Block} {t : Mk} {s : FsState}

end Xv6.Mkfs
