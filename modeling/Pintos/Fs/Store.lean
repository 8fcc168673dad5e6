/-
  What the file system is for.

  A store has files, which are sequences of bytes of a fixed length, names that are bound to files, and
  handles, each with a file and a position.
-/
import Pintos.Fs.Filesys

namespace Pintos

open Lib Function

structure Store where
  names : Name → Option ℕ
  bytes : ℕ → List UInt8
  /-- the file and the position of a handle -/
  handles : ℕ → Option (ℕ × ℕ)

namespace Store

/-- The store of a device that was just formatted. -/
def empty : Store := ⟨fun _ => none, fun _ => [], fun _ => none⟩

/-- A file that no name is bound to and no handle is open on. -/
def Unused (a : Store) (id : ℕ) : Prop :=
  (∀ name, a.names name ≠ some id) ∧ ∀ h pos, a.handles h ≠ some (id, pos)

/-- The bytes of `l` that a request of `size` bytes at the position `pos` is about. -/
def inside (l : List UInt8) (size : ℤ) (pos : ℕ) : ℕ := min size.toNat (l.length - pos)

def bind (a : Store) (name : Name) (id : Option ℕ) : Store := { a with names := update a.names name id }

def putBytes (a : Store) (id : ℕ) (l : List UInt8) : Store := { a with bytes := update a.bytes id l }

def putHandle (a : Store) (h : ℕ) (o : Option (ℕ × ℕ)) : Store := { a with handles := update a.handles h o }

inductive Step : Store → Op × Result → Store → Prop
  /-- a new name is bound to a new file of zeros -/
  | create {a name size id} : name.val ≠ [] → name.val.length ≤ 14 → a.names name = none → a.Unused id →
      Step a (.create name size, .bool true) ((a.bind name (some id)).putBytes id (List.replicate size.toNat 0))
  /-- there may be no space -/
  | createFail {a name size} : Step a (.create name size, .bool false) a
  | open_ {a name id h} : a.names name = some id → a.handles h = none →
      Step a (.open_ name, .file (some h)) (a.putHandle h (some (id, 0)))
  | openFail {a name} : a.names name = none → Step a (.open_ name, .file none) a
  | read {a h size id pos} : a.handles h = some (id, pos) →
      Step a (.read h size, .bytes (((a.bytes id).drop pos).take size.toNat))
        (a.putHandle h (some (id, pos + inside (a.bytes id) size pos)))
  | write {a h buffer size id pos} : a.handles h = some (id, pos) →
      Step a (.write h buffer size, .count (inside (a.bytes id) size pos))
        ((a.putBytes id (overwrite (a.bytes id) pos (slice buffer 0 (inside (a.bytes id) size pos)))).putHandle h
          (some (id, pos + inside (a.bytes id) size pos)))
  | seek {a h newPos id pos} : a.handles h = some (id, pos) →
      Step a (.seek h newPos, .done) (a.putHandle h (some (id, newPos.toNat)))
  | close {a h id pos} : a.handles h = some (id, pos) → Step a (.close h, .done) (a.putHandle h none)
  | remove {a name id} : a.names name = some id → Step a (.remove name, .bool true) (a.bind name none)
  | removeFail {a name} : a.names name = none → Step a (.remove name, .bool false) a

end Store

end Pintos
