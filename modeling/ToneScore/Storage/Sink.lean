import ToneScore.Storage.Fault

/-!
# Sinks

A sink takes bytes a few at a time and may run full. `send` offers a run of bytes until all of it
is taken; the sink is full as soon as it takes none. `memory` takes everything, `bounded` as much
as its room allows.
-/

namespace ToneScore.Storage

/-- Where bytes go: how many of the bytes at hand it takes, never none unless it is full. -/
structure Sink (σ : Type) where
  accept : σ → List UInt8 → Nat × σ

namespace Sink

/-- The outcome of offering all of `bytes`, and the state after it. -/
def offer {σ : Type} (sink : Sink σ) (s : σ) (bytes : List UInt8) : Except Fault Unit × σ :=
  if bytes = [] then (.ok (), s)
  else
    let taken := sink.accept s bytes
    if taken.1 = 0 then (.error .full, taken.2)
    else offer sink taken.2 (bytes.drop taken.1)
  termination_by bytes.length
  decreasing_by
    have hbytes : 0 < bytes.length := List.length_pos_iff.mpr (by assumption)
    have htaken : (sink.accept s bytes).1 ≠ 0 := by assumption
    simp only [List.length_drop]
    omega

def send {σ : Type} (sink : Sink σ) (bytes : List UInt8) : ExceptT Fault (StateM σ) Unit :=
  fun s => sink.offer s bytes

def extend (received : ByteArray) (bytes : List UInt8) : ByteArray :=
  bytes.foldl ByteArray.push received

/-- The sink whose state is all that it has taken. -/
def memory : Sink ByteArray where
  accept received bytes := (bytes.length, extend received bytes)

structure Bounded where
  /-- How many more bytes it takes. -/
  room : Nat
  received : ByteArray

def bounded : Sink Bounded where
  accept s bytes :=
    let taken := bytes.take s.room
    (taken.length, ⟨s.room - taken.length, extend s.received taken⟩)

/-! ## The sink in memory -/

@[simp] theorem toList_extend (received : ByteArray) (bytes : List UInt8) :
    (extend received bytes).data.toList = received.data.toList ++ bytes := by
  induction bytes generalizing received with
  | nil => simp [extend]
  | cons b bs ih =>
    have := ih (received.push b)
    simp_all [extend]

end Sink

end ToneScore.Storage
