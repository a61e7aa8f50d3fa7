import StructuredOutput.Content.Parse
import StructuredOutput.Notice
import StructuredOutput.Settings
import StructuredOutput.Stream.Repair
import StructuredOutput.Stream.Snapshot

/-!
Typed values from streamed text. Events come in order; after each of them the latest snapshot tells
what is known so far. Only completion yields a value, by the same decoding as that of a whole text.
After the end of a stream nothing changes any more.
-/

namespace StructuredOutput

open Text

/-- The stages of a stream. -/
inductive StreamState where
  | empty | partly | complete | cancelled | failed
  deriving DecidableEq

namespace StreamState

def name : StreamState → String
  | empty => "empty"
  | partly => "partial"
  | complete => "complete"
  | cancelled => "cancelled"
  | failed => "failed"

/-- Whether the stream has ended. -/
def isTerminal : StreamState → Bool
  | complete | cancelled | failed => true
  | empty | partly => false

end StreamState

/-- A failure of whatever delivers the stream. -/
structure AdapterError where
  kind : String
  message : String
  deriving DecidableEq

/-- What a stream delivers. -/
inductive StreamEvent where
  /-- All text so far. -/
  | fragment (text : List Char)
  /-- Text to append. -/
  | delta (text : List Char)
  /-- Content that needs no parsing. -/
  | native (content : Content)
  /-- The end, with the whole text unless that is the text so far. -/
  | completed (text : Option (List Char))
  | failed (error : AdapterError)
  | cancelled
  /-- Anything else; the word for its kind is given. -/
  | other (kind : String)

/-- The word for the kind of an event. -/
def StreamEvent.kind : StreamEvent → String
  | .fragment _ => "TextFragment"
  | .delta _ => "TextDelta"
  | .native _ => "NativePartial"
  | .completed _ => "StreamCompleted"
  | .failed _ => "StreamFailed"
  | .cancelled => "StreamCancelled"
  | .other kind => kind

/-- Why a stream has no result. -/
inductive IncompleteCause where
  | stated (text : String)
  | invalidJson
  | missingProperty (name : String)
  | ended (state : StreamState)
  deriving DecidableEq

/-- A stream without a result, and the required properties that never had a value. -/
structure Incomplete where
  cause : IncompleteCause
  missing : List String
  deriving DecidableEq

def Incomplete.message (i : Incomplete) : String :=
  match i.cause with
  | .stated text => text
  | .invalidJson => "Stream completed without valid JSON."
  | .missingProperty name =>
    "Stream completed without required property " ++ quotedString name ++ "."
  | .ended state => "Stream ended in state " ++ state.name ++ " without a result."

/-- Why an event or the result of a stream is an error. -/
inductive StreamError where
  | incomplete (cause : Incomplete)
  | decode (cause : DecodeError)
  | adapter (cause : AdapterError)
  deriving DecidableEq

/-- What is known at a point of a stream. -/
structure StreamView where
  state : StreamState
  known : Value
  value : Value

/-- A stream in progress. -/
structure Reconstructor where
  type : TypeExpr
  /-- The name of the type in reports. -/
  target : String
  settings : StreamSettings
  buffer : List Char
  state : StreamState
  /-- The last state other than failure and cancellation. -/
  visible : StreamState
  known : Value
  value : Value

/-- What feeding an event leads to: the snapshot that it yields, if any, the stream afterwards and
what is reported. -/
structure Fed where
  outcome : Except StreamError (Option StreamView)
  next : Reconstructor
  notices : List Notice

namespace Reconstructor

/-- A stream that is about to begin. -/
def start (ds : Declarations) (t : TypeExpr) (settings : StreamSettings) :
    Except TypeFault Reconstructor :=
  (ds.shapeOf t).map fun _ =>
    ⟨t, t.label ds, settings, [], .empty, .empty, .unknown, .null⟩

/-- The latest snapshot. -/
def view (r : Reconstructor) : StreamView := ⟨r.visible, r.known, r.value⟩

/-- The stream in another state. -/
def enter (r : Reconstructor) (state : StreamState) : Reconstructor :=
  { r with
    state
    visible :=
      match state with
      | .failed | .cancelled => r.visible
      | _ => state }

/-- What is reported of a change of state. -/
def changeNotices (r : Reconstructor) (state : StreamState) : List Notice :=
  if state = r.state then [] else [.streamStateChanged r.target r.state.name state.name]

/-- The required properties of which nothing is known. -/
def missing (ds : Declarations) (r : Reconstructor) : List String :=
  match Snapshot.missing ds r.known with
  | .ok keys => keys
  | .error _ => []

/-- Adds what content tells. -/
def ingest (ds : Declarations) (r : Reconstructor) (c : Content) : Fed :=
  match snapshot ds c r.type with
  | .error fault => ⟨.error (.decode (.type fault)), r, []⟩
  | .ok observed =>
    if observed.isUnknown then ⟨.ok none, r, [.fragmentUnmatched r.target c.kind.name]⟩
    else
      let next := { r with known := Snapshot.merge r.known observed }.enter .partly
      ⟨.ok (some next.view), next, r.changeNotices .partly⟩

/-- The text that is decoded of an unfinished stream. -/
def legible (r : Reconstructor) : List Char :=
  if r.settings.repairPartial then Repair.repair r.buffer else r.buffer

/-- Adds what the text so far tells. Text that cannot be read is passed over. -/
def ingestText (ds : Declarations) (r : Reconstructor) : Fed :=
  let text := r.legible
  if (trim text).isEmpty then ⟨.ok none, r, []⟩
  else
    match Content.parse text with
    | .error fault =>
      ⟨.ok none, r, [.fragmentSkipped r.target r.buffer.length (fault.message?.getD "")]⟩
    | .ok c => r.ingest ds c

/-- The stream after a failure. -/
def fail (r : Reconstructor) (error : StreamError) : Fed :=
  ⟨.error error, r.enter .failed, r.changeNotices .failed⟩

/-- Ends the stream with a value. -/
def complete (ds : Declarations) (r : Reconstructor) (text : Option (List Char)) : Fed :=
  match Content.parse (text.getD r.buffer) with
  | .error _ => r.fail (.incomplete ⟨.invalidJson, r.missing ds⟩)
  | .ok c =>
    match decode ds c r.type with
    | .error (.missing m) =>
      let keys := r.missing ds
      r.fail (.incomplete ⟨.missingProperty m.name, if keys.isEmpty then [m.name] else keys⟩)
    | .error (.type (.definition cause)) => r.fail (.decode (.type (.definition cause)))
    | .error (.type fault) => ⟨.error (.decode (.type fault)), r, []⟩
    | .error cause => r.fail (.decode cause)
    | .ok v =>
      match snapshot ds c r.type with
      | .error fault => ⟨.error (.decode (.type fault)), r, []⟩
      | .ok observed =>
        let next :=
          { r with known := Snapshot.merge r.known observed, value := v }.enter .complete
        ⟨.ok (some next.view), next, r.changeNotices .complete⟩

/-- Takes in an event. -/
def feed (ds : Declarations) (r : Reconstructor) (event : StreamEvent) : Fed :=
  if r.state.isTerminal then
    ⟨.ok none, r, [.streamEventIgnored r.target r.state.name event.kind]⟩
  else
    match event with
    | .fragment text => { r with buffer := text }.ingestText ds
    | .delta text => { r with buffer := r.buffer ++ text }.ingestText ds
    | .native c => r.ingest ds c
    | .completed text => r.complete ds text
    | .failed error => r.fail (.adapter error)
    | .cancelled => ⟨.ok none, r.enter .cancelled, r.changeNotices .cancelled⟩
    | .other _ => ⟨.ok none, r, []⟩

/-- The value of a completed stream. -/
def result (ds : Declarations) (r : Reconstructor) : Except Incomplete Value :=
  if r.state = .complete then .ok r.value else .error ⟨.ended r.state, r.missing ds⟩

end Reconstructor

/-- The snapshots of a stream up to the first error, and that error. -/
def reconstruct (ds : Declarations) (r : Reconstructor) (events : List StreamEvent) :
    List StreamView × Option StreamError × List Notice :=
  match events with
  | [] => ([], none, [])
  | event :: rest =>
    let fed := r.feed ds event
    match fed.outcome with
    | .error e => ([], some e, fed.notices)
    | .ok seen =>
      let (views, ended, notices) := reconstruct ds fed.next rest
      (seen.toList ++ views, ended, fed.notices ++ notices)

end StructuredOutput
