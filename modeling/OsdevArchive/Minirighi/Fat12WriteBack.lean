import OsdevArchive.Minirighi.Fat12

/-!
What `fat12_write` leaves on the disk. It writes the encoded table once for each copy of the FAT,
and every time to sector 1.
-/

namespace OsdevArchive.Minirighi.Fat12

open OsdevArchive.Minirighi.Inet

variable {s t : St} {io : Nat → Option Nat} {i : Nat}

/-- A mounted volume, before any write. -/
structure Mounted extends St where
  checked : super.check = true
  fresh : writes = []

end OsdevArchive.Minirighi.Fat12
