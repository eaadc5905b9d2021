import Phrasebook.Table

/-!
The active language of a running program. It is taken from the store the first time it is needed, or
from the default where the store holds none, and never again. A change to another language is saved
and counted.
-/

namespace Phrasebook

structure Store where
  held : Option String
  deriving DecidableEq

inductive StoreCall
  | load
  | save : String → StoreCall
  deriving DecidableEq

structure Session where
  default : String
  active : Option String
  /-- The changes so far, counted in 64 bits. -/
  changes : UInt64
  deriving DecidableEq

namespace Session

def start (default : String) : Session := ⟨default, none, 0⟩

def generation (s : Session) : Nat := s.changes.toNat

structure World where
  session : Session
  store : Store
  calls : List StoreCall
  deriving DecidableEq

/-- The last two are made by someone else. -/
inductive Request
  | current
  | change : String → Request
  | row : Table → Request
  | writeStore : String → Request
  | readStore

inductive Reply
  | nothing
  | language : String → Reply
  | row : List String → Reply
  | held : Option String → Reply
  deriving DecidableEq

namespace World

def activate (w : World) : String × World :=
  match w.session.active with
  | some language => (language, w)
  | none =>
    let language := w.store.held.getD w.session.default
    (language,
      { w with session := { w.session with active := some language }, calls := w.calls ++ [.load] })

def change (language : String) (w : World) : World :=
  let (active, w) := w.activate
  if active = language then w
  else
    { session := { w.session with active := some language, changes := w.session.changes + 1 }
      store := ⟨some language⟩
      calls := w.calls ++ [.save language] }

def serve (w : World) : Request → Reply × World
  | .current =>
    let (active, w) := w.activate
    (.language active, w)
  | .change language => (.nothing, w.change language)
  | .row t =>
    let (active, w) := w.activate
    (.row (t.rowFor active), w)
  | .writeStore language => (.nothing, { w with store := ⟨some language⟩ })
  | .readStore => (.held w.store.held, w)

def run (w : World) (requests : List Request) : World := requests.foldl (fun w r => (w.serve r).2) w

end World

end Session

end Phrasebook
