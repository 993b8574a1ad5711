import MediaRelay.Relay.Basic

/-! # Sources and listeners of a relay -/
namespace MediaRelay.Relay

def openSource (r : Relay) (z : Sizing) (i : Input) (owned : Bool) : SourceId × Relay :=
  (r.nextSource,
    { r with
      channels := r.channels.put r.nextSource { feed := .start z i, owned := owned }
      nextSource := r.nextSource + 1 })

/-- A new source, unless the system refuses a thread for its producer. -/
def openSource? (r : Relay) (z : Sizing) (i : Input) (owned : Bool)
    (refusal : Option InputFailure) : Except InputFailure (SourceId × Relay) :=
  match refusal with
  | some cause => .error cause
  | none => .ok (r.openSource z i owned)

/-- A new listener joins a source, if the start of the stream is still there. -/
def join? (r : Relay) (k : SourceId) (name : String) : Option (Listener × Relay) :=
  match r.channels.get? k with
  | none => none
  | some c =>
    match c.feed.source.attach? with
    | none => none
    | some (id, source) =>
      let l : Listener := ⟨k, { cursor := id }⟩
      some (l, { r.updateSource k (fun _ => source) with listeners := r.listeners.put name l })

/-- A listener leaves: its cursor is detached, and it holds the source no longer. -/
def leave (r : Relay) (name : String) : Relay :=
  match r.listeners.get? name with
  | none => r
  | some l =>
    let r := r.updateSource l.source (·.detach l.reader.cursor)
    let r := { r with
      agenda := r.agenda.postAll (((r.channels.get? l.source).map Channel.onDetach).getD [])
      listeners := r.listeners.erase name }
    r.reap l.source

/-- The creator of a source holds it no longer. -/
def disown (r : Relay) (k : SourceId) : Relay :=
  (r.updateChannel k fun c => { c with owned := false }).reap k

def feed (r : Relay) (k : SourceId) (items : List InputItem) : Relay :=
  r.updateChannel k fun c => { c with feed := { c.feed with input := c.feed.input.feed items } }

def onClose (r : Relay) (k : SourceId) (t : Task) : Relay :=
  r.updateChannel k fun c => { c with onClose := c.onClose ++ [t] }

def onDetach (r : Relay) (k : SourceId) (t : Task) : Relay :=
  r.updateChannel k fun c => { c with onDetach := c.onDetach ++ [t] }

/-- A listener does something with its source, unless that would have to wait. -/
def listen? {α : Type} (r : Relay) (name : String)
    (act : Reader → Feed → Option (α × Reader × Feed)) : Option (α × Relay) :=
  match r.listeners.get? name with
  | none => none
  | some l =>
    match r.channels.get? l.source with
    | none => none
    | some c =>
      match act l.reader c.feed with
      | none => none
      | some (a, reader, feed) =>
        some (a, { r.updateChannel l.source (fun c => { c with feed := feed }) with
          listeners := r.listeners.modify name fun l => { l with reader := reader } })

end MediaRelay.Relay
