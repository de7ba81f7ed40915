import LatencyControl.Flow.Channel

/-!
# The channels of a gate

A bank holds the channels of one output gate, each with its receiver.  Channels are addressed by
their index, and found by their identifier.
-/

namespace LatencyControl

/-- A channel and where it leads. -/
structure Lane (τ ρ κ : Type) where
  channel : Channel τ ρ
  receiver : κ

/-- The channels of the gate with the given identifier. -/
structure Bank (τ ρ κ : Type) where
  id : GateId
  lanes : List (Lane τ ρ κ) := []

/-- Records on their way to a receiver. -/
abbrev Shipment (ρ κ : Type) := κ × List ρ

namespace Bank

variable {τ ρ κ : Type}

/-- The index of a channel. -/
def indexOf? (b : Bank τ ρ κ) (channel : ChannelId) : Option Nat :=
  b.lanes.findIdx? (fun l => l.channel.id = channel)

/-- The channel at an index. -/
def idOf? (b : Bank τ ρ κ) (index : Nat) : Option ChannelId :=
  (b.lanes[index]?).map (fun l => l.channel.id)

/-- Adds a channel, which must be new; the answer holds its index. -/
def add (b : Bank τ ρ κ) (l : Lane τ ρ κ) : Except Error (Nat × Bank τ ρ κ) :=
  if (b.indexOf? l.channel.id).isSome then .error (.channelConnected l.channel.id b.id)
  else .ok (b.lanes.length, { b with lanes := b.lanes ++ [l] })

/-- Replaces the channel at an index. -/
def setChannel (b : Bank τ ρ κ) (index : Nat) (c : Channel τ ρ) : Bank τ ρ κ :=
  { b with lanes := b.lanes.modify index (fun l => { l with channel := c }) }

/-- Sets the age at which the buffers of the channel at an index are sent. -/
def setTarget (b : Bank τ ρ κ) (index : Nat) (target : Int32) : Except Error (Bank τ ρ κ) :=
  match b.lanes[index]? with
  | some l => .ok (b.setChannel index (l.channel.setTarget target))
  | none => .error (.noChannel b.id index)

/-- Sends the buffers of some channels, one after the other; at the first one that fails, sending
stops. -/
def flushLanes (connected : κ → Bool) :
    List (Lane τ ρ κ) → Except Error Unit × List (Shipment ρ κ) × List (Lane τ ρ κ)
  | [] => (.ok (), [], [])
  | l :: rest =>
    match l.channel.flush (connected l.receiver) with
    | (.ok sent, c) =>
      let (result, shipments, rest) := flushLanes connected rest
      (result, (l.receiver, sent) :: shipments, { l with channel := c } :: rest)
    | (.error e, c) => (.error e, [], { l with channel := c } :: rest)

/-- Sends the buffers of all channels; at the first one that fails, sending stops. -/
def flush (b : Bank τ ρ κ) (connected : κ → Bool) :
    Except Error Unit × List (Shipment ρ κ) × Bank τ ρ κ :=
  let (result, shipments, lanes) := flushLanes connected b.lanes
  (result, shipments, { b with lanes })

/-- Writes a record to the channel at an index. -/
def write [Millis τ] (b : Bank τ ρ κ) (index : Nat) (now : τ) (connected : κ → Bool) (record : ρ) :
    Except Error (Shipment ρ κ) × Bank τ ρ κ :=
  match b.lanes[index]? with
  | some l =>
    let (sent, c) := l.channel.write now (connected l.receiver) record
    (sent.map (fun records => (l.receiver, records)), b.setChannel index c)
  | none => (.error (.noChannel b.id index), b)

/-- Writes a record to the channel at an index, unless that overflows. -/
def write? [Millis τ] (b : Bank τ ρ κ) (index : Nat) (now : τ) (connected : κ → Bool) (record : ρ) :
    Option (Except Error (Shipment ρ κ) × Bank τ ρ κ) :=
  if (b.lanes[index]?).any (fun l => l.channel.overflowsAt now record) then none
  else some (b.write index now connected record)

end Bank

end LatencyControl
