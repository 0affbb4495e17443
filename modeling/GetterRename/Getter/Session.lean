import GetterRename.Getter.Ledger

/-!
# Sessions on a ledger

A ledger is used through views: that of the file, and those of token lists deeper in the file, each
made from an earlier one.  A session is a ledger with the views made so far, numbered from zero on.
Every request goes through one of the views, and all of them share the ledger.

- `Request`, `Answer` : what is asked through a view, and what comes back;
- `Session.call` : a request through a view;
- `Session.after`, `Session.transcript` : the session behind some calls, and the calls with their
  answers.
-/

namespace GetterRename

/-- What is asked through a view. -/
inductive Request where
  | add (r : Rename)
  /-- A view of a token list `offset` lines further down. -/
  | relocate (offset : Int)
  | take (line : Int)
  | renames
  | size
  | isEmpty
  | offset
  deriving DecidableEq, Repr

/-- What comes back. -/
inductive Answer where
  | added
  | refused (e : DuplicateDefinition)
  /-- The number of a new view. -/
  | view (number : Nat)
  | renames (rs : List Rename)
  | size (n : Nat)
  | isEmpty (b : Bool)
  | offset (n : Int)
  deriving DecidableEq, Repr

/-- A request through the view with a number. -/
structure Call where
  view : Nat
  request : Request
  deriving DecidableEq, Repr

/-- A ledger and the views made so far. -/
structure Session where
  ledger : Ledger
  views : List View := [{}]
  deriving DecidableEq, Repr

namespace Session

/-- The session of a file in which nothing was found yet. -/
def start (path : Bytes) (tool : Tool) : Session := { ledger := .start path tool }

/-- What a request through the view `v` does, and its answer. -/
def answer (s : Session) (v : View) : Request → Session × Answer
  | .add r =>
    match s.ledger.add (v.adopt r) with
    | .ok ledger => ({ s with ledger }, .added)
    | .error e => (s, .refused e)
  | .relocate offset => ({ s with views := s.views ++ [v.relocate offset] }, .view s.views.length)
  | .take line =>
    let (renames, ledger) := s.ledger.take line
    ({ s with ledger }, .renames renames)
  | .renames => (s, .renames s.ledger.pending)
  | .size => (s, .size s.ledger.size)
  | .isEmpty => (s, .isEmpty s.ledger.isEmpty)
  | .offset => (s, .offset v.offset)

/-- A call. Without a view of its number there is no answer. -/
def call (s : Session) (c : Call) : Session × Option Answer :=
  match s.views[c.view]? with
  | some v =>
    let (s, a) := s.answer v c.request
    (s, some a)
  | none => (s, none)

/-- The session behind some calls. -/
def after (s : Session) (calls : List Call) : Session := calls.foldl (fun s c => (s.call c).1) s

/-- The calls with their answers. -/
def transcript (s : Session) : List Call → List (Call × Option Answer)
  | [] => []
  | c :: calls => (c, (s.call c).2) :: (s.call c).1.transcript calls

end Session

end GetterRename
