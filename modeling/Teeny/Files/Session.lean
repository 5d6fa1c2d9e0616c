import Teeny.Files.Listing

/-!
# Sessions

A session works on several outputs of one volume at once, each known by a number, while others may
remove and make directories. Creating an output under a number in use aborts the earlier output,
after the new one is there. Closing a session aborts all outputs that are still open.
-/

namespace Teeny

/-- A volume and the outputs on it. -/
structure Session where
  volume : Volume
  outputs : List (Int × Output)

/-- One operation. -/
inductive Action where
  /-- Creates an output, where the number of the pending file has `digits` digits. -/
  | create (id : Int) (path : Bytes) (digits : Nat)
  | write (id : Int) (data : Bytes)
  | commit (id : Int)
  | abort (id : Int)
  | path (id : Int)
  | list
  | remove (path : Bytes)
  | makeDirectory (path : Bytes)

/-- What an operation answers. -/
inductive Answer where
  | done
  | path (path : Bytes)
  | written (count : Nat)
  | listed (lines : List Listed)
  /-- The output refused the operation. -/
  | failed (error : OutputError)
  /-- The output refused a write. -/
  | unwritten (error : OutputError)
  /-- No output has this number. -/
  | unknown (id : Int)
  /-- An operation on the tree itself failed. -/
  | broken (error : FileError)

namespace Session

/-- The output with a number. -/
def get? (s : Session) (id : Int) : Option Output := s.outputs.lookup id

/-- Sets the output with a number. -/
def set (s : Session) (id : Int) (o : Output) (v : Volume) : Session :=
  ⟨v, (id, o) :: s.outputs.filter fun e => e.1 ≠ id⟩

/-- Does something with the output that has a number, if there is one. -/
def withOutput (s : Session) (id : Int) (act : Output → Session × Answer) : Session × Answer :=
  match s.get? id with
  | some o => act o
  | none => (s, .unknown id)

/-- Carries out one operation. -/
def step (s : Session) : Action → Session × Answer
  | .create id path digits =>
    match s.volume.create path digits with
    | .error e => (s, .failed e)
    | .ok (o, v) =>
      let v := match s.get? id with
        | some earlier => (v.abort earlier).2
        | none => v
      (s.set id o v, .path path)
  | .write id data =>
    s.withOutput id fun o =>
      match s.volume.write o data with
      | .ok v => ({ s with volume := v }, .written data.length)
      | .error e => (s, .unwritten e)
  | .commit id =>
    s.withOutput id fun o =>
      let (o, v, error) := s.volume.commit o
      (s.set id o v, match error with
        | none => .done
        | some e => .failed e)
  | .abort id =>
    s.withOutput id fun o =>
      let (o, v) := s.volume.abort o
      (s.set id o v, .done)
  | .path id => s.withOutput id fun o => (s, .path o.path)
  | .list =>
    match s.volume.list with
    | .ok lines => (s, .listed lines)
    | .error e => (s, .broken e)
  | .remove path =>
    ({ s with volume := { s.volume with tree := s.volume.tree.remove path } }, .done)
  | .makeDirectory path =>
    match s.volume.tree.makeDirectory path with
    | .ok tree => ({ s with volume := { s.volume with tree } }, .done)
    | .error e => (s, .broken e)

/-- Carries out operations in order. -/
def run (s : Session) : List Action → Session × List Answer
  | [] => (s, [])
  | action :: actions =>
    let (s, answer) := s.step action
    let (s, answers) := s.run actions
    (s, answer :: answers)

/-- The volume after all open outputs are aborted. -/
def close (s : Session) : Volume :=
  s.outputs.foldl (fun v e => (v.abort e.2).2) s.volume

end Session

end Teeny
