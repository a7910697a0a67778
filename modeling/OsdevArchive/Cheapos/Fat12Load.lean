import OsdevArchive.Cheapos.Fat12Open
import OsdevArchive.Lib.Chained

/-!
What `fat12_loadfiledir` of cheapos (`fs_fat12.c`) reads of the table and writes into the
buffer. It follows the links as long as they are data clusters, wherever they lead; the size
of a file is checked before, and has no part in it.
-/

namespace OsdevArchive.Cheapos.Fat12Open

open Fat12Mount OsdevArchive.Lib.Chained

/-- An index of `fat12_FAT_img` is read, or some bytes of the buffer are written. -/
inductive Accesso where
  | leggeFat (cluster : Nat)
  | scrive (posto byte : Nat)

/-- How many bytes an access writes. -/
def Accesso.scritti : Accesso → Nat
  | .leggeFat _ => 0
  | .scrive _ byte => byte

/-- The variables of the loop, with the accesses that have been made. -/
structure Carico where
  i : Nat
  image : Nat → Byte
  accessi : List Accesso

namespace Floppy

variable (f : Floppy)

/-- One turn of the loop. -/
def turno (s : Carico) (startcluster : Nat) : Carico where
  i := s.i + 1
  image := f.floppyRead (f.volume.datiStartcluster.toNat + startcluster) 1 (512 * s.i) s.image
  accessi := s.accessi ++ [.scrive (512 * s.i) 512, .leggeFat startcluster]

/-- The loop; `none` if it does not end within `fuel` turns. -/
def carica (fuel startcluster : Nat) (s : Carico) : Option Carico :=
  pursue (fat12Nextcluster f.volume) (fun c => ¬ fat12IsUserData c) f.turno fuel startcluster s

/-- The accesses of `fat12_loadfiledir`. -/
def accessi (fuel startcluster : Nat) (image : Nat → Byte) : Option (List Accesso) :=
  if startcluster = 0 then some [.scrive 0 (512 * (f.rootEntCnt * 32 / 512))]
  else (f.carica fuel startcluster ⟨0, image, []⟩).map Carico.accessi

/-- The links from a cluster on come to an end. -/
def Catena (startcluster : Nat) (clusters : List Nat) : Prop :=
  Chain (fat12Nextcluster f.volume) (fun c => ¬ fat12IsUserData c) startcluster clusters

variable {f} {s t : Carico} {clusters : List Nat} {startcluster fuel : Nat} {image : Nat → Byte}

/-- Without the accesses the loop is the one of `fat12_loadfiledir`. -/
theorem carica_loadChain (s : Carico) :
    (f.carica fuel startcluster s).map (fun t => (t.i, t.image)) =
      (f.loadChain fuel startcluster s.i s.image).map Prod.snd := by
  induction fuel generalizing startcluster s with
  | zero => rfl
  | succ fuel ih =>
    rw [carica, pursue, loadChain]
    by_cases hgo : fat12IsUserData startcluster
    · rw [if_neg (not_not.mpr hgo), if_pos hgo]
      exact ih (f.turno s startcluster)
    · rw [if_pos hgo, if_neg hgo]
      rfl

/-- A volume whose table has one entry that is not free: cluster 2 is followed by itself. -/
def anello : Floppy where
  volume :=
    { fatImg := fun a => if a = 4 then 2 else 0
      fatSize := 3074
      rootdirStartcluster := 19
      datiStartcluster := 31 }
  rootEntCnt := 224
  disk := fun _ => 0

end Floppy

end OsdevArchive.Cheapos.Fat12Open
