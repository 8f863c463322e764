/-
Several mounts of one bucket.

Mounts without caches share nothing but the server, and the operations of `FileOp` are what
the server sees of them.  In whatever order the mounts take their turns, they answer
together as one store of files.
-/
import SiaFS.Refinement

namespace SiaFS

open FlatStore JsonText

variable {σ : Type}

section Mounts

variable {ι : Type} [DecidableEq ι]

/-- A mount takes its turn, and the others find the server as it leaves it. -/
def mountTurn (e : ι → Env σ) (c : ι × FileOp) : Exec (ι → World σ) Fault (List Answer) := fun ws =>
  let (answers, w') := c.2.run (e c.1) (ws c.1)
  (answers, fun i => if i = c.1 then w' else { ws i with server := w'.server })

/-- The store that the mounts share, and what each of them has uploaded last. -/
structure SharedFiles (ι : Type) where
  objects : Objects UInt8 UInt8
  last : ι → Option CStr

def SharedFiles.of (s : SharedFiles ι) (i : ι) : Files := ⟨s.objects, s.last i⟩

def mountsMachine (e : ι → Env σ) : Machine (SharedFiles ι) (ι × FileOp) (List Answer) where
  accepts s c := c.2.Accepted (e c.1) (s.of c.1)
  answers s c := c.2.Answered (e c.1) (s.of c.1)
  next s c :=
    let s' := c.2.next (s.of c.1)
    ⟨s'.objects, Function.update s.last c.1 s'.last⟩

/-- The mounts are on the same server, and each has the files of the store. -/
structure SharedFilesOf (e : ι → Env σ) (view : σ → Bucket) (s : SharedFiles ι)
    (ws : ι → World σ) : Prop where
  files : ∀ i, FilesOf (e i) view (s.of i) (ws i)
  server : ∀ i j, (ws i).server = (ws j).server

variable {e : ι → Env σ} {catalogue : σ → Catalogue} {view : σ → Bucket} {bucket : CStr}
  {server : σ → Request → Reply × σ}

end Mounts

/-- The mounts of both builds, `true` for the one with `SIA_HUGE_FILES`. -/
def bothMounts (huge : Bool) : Env Store := { receivingMount with hugeFiles := huge }

end SiaFS
