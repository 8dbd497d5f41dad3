/-
  What a session can be asked to do, one request after the other. A request that fails
  reports why, and the session goes on.
-/
import TextHoist.Editor.Session

namespace TextHoist

/-- A request that may change a session. -/
inductive Request where
  | setCaret (offset : Nat)
  | setCaretAt (line column : Nat)
  | commit (patch : Patch)
  | execute (action : MoveText)
  | undo
  | markDirty
  | markSaved
  deriving DecidableEq, Repr

/-- What a session answers to a request that it fulfils. -/
inductive Reply where
  | done
  /-- Whether there was a commit to go back on. -/
  | undone (changed : Bool)
  | ran (outcome : Outcome)
  deriving DecidableEq, Repr

namespace Session

/-- The session that a change leads to, or the same one and why not. -/
def update (s : Session) (r : Except Error Session) : Except Error Reply × Session :=
  match r with
  | .ok s' => (.ok .done, s')
  | .error e => (.error e, s)

/-- Fulfils a request. -/
def handle (s : Session) : Request → Except Error Reply × Session
  | .setCaret offset => s.update (s.setCaret offset)
  | .setCaretAt line column => s.update (s.setCaretAt line column)
  | .commit patch => s.update (s.commit patch)
  | .execute action =>
    let (r, s') := action.execute s
    (r.map .ran, s')
  | .undo =>
    let (r, s') := s.undo
    (r.map .undone, s')
  | .markDirty => (.ok .done, s.markDirty)
  | .markSaved => (.ok .done, s.markSaved)

/-- The session after some requests, in order. -/
def after (s : Session) (requests : List Request) : Session :=
  requests.foldl (fun s r => (s.handle r).2) s

end Session

end TextHoist
