import Mathlib.Algebra.Ring.Int.Defs
import TopicBroker.Message

/-!
The subscriber's side of the protocol, from client.c and subscriber.c: the three
messages it sends and the decoding of a frame in `processMessage`. What is
printed is kept as its fields, a real number as the integers that it is computed
from; the division and the text are those of `Reals`.
-/
namespace TopicBroker.Client

open ByteBlocks ByteOrder Message

/-- Length of the command line the user can enter. -/
abbrev cmdLen : ℕ := 100

/-- A token of the command line: no NUL, and shorter than the line's buffer. -/
structure Token where
  text : Bytes
  noNul : ∀ b ∈ text, b ≠ 0
  fits : text.length < cmdLen

/-- The 57 bytes sent by `subscribe`. -/
def subscribe (sendBuffer : Frame) (topic : Token) (sf : CInt) :
    Block (topicLen + commandSendLen + 1 + 4 + nullLen) :=
  let data := sendBuffer.write 0 (List.replicate bufferClientLen 0)
    (by rw [List.length_replicate]; decide)
  let data := data.write 0 [115] (by decide)
  let data := data.write commandSendLen topic.text (by
    have h := topic.fits
    simp only [cmdLen, commandSendLen, formatLen, bufferServerLen, ipCharLen, nullLen, typeLen] at h ⊢
    omega)
  let data := data.write (topicLen + commandSendLen + 1) (intBytes sf)
    (by rw [intBytes_length]; decide)
  let data := data.write (topicLen + commandSendLen + 1 + 4) [0] (by decide)
  data.slice 0 (topicLen + commandSendLen + 1 + 4 + nullLen) (by decide)

/-- The 51 bytes sent by `unsubscribe`. -/
def unsubscribe (sendBuffer : Frame) (topic : Token) : Block (topicLen + nullLen) :=
  let data := sendBuffer.write 0 (List.replicate bufferClientLen 0)
    (by rw [List.length_replicate]; decide)
  let data := data.write 0 [117] (by decide)
  let data := data.write commandSendLen topic.text (by
    have h := topic.fits
    simp only [cmdLen, commandSendLen, formatLen, bufferServerLen, ipCharLen, nullLen, typeLen] at h ⊢
    omega)
  let data := data.write (topicLen + commandSendLen + 1) [0] (by decide)
  data.slice 0 (topicLen + nullLen) (by decide)

/-- `strncpy` of the command-line argument into the ID array. -/
def copyId (argument : Bytes) : Block idLen :=
  ⟨(cstr argument).take idLen ++ List.replicate (idLen - (cstr argument).length) 0, by
    simp only [List.length_append, List.length_take, List.length_replicate]
    omega⟩

/-- The 11 bytes sent on connecting. -/
def sendId (sendBuffer : Frame) (argument : Bytes) : Block (idLen + 1) :=
  let data := sendBuffer.write 0 (List.replicate bufferClientLen 0)
    (by rw [List.length_replicate]; decide)
  let data := data.write 0 (copyId argument).bytes (by rw [Block.size]; decide)
  let data := data.write idLen [0] (by decide)
  data.slice 0 (idLen + 1) (by decide)

/-- The value a message carries: an INT is absent when its negation overflows, a
SHORT_REAL is printed as hundredths, a FLOAT as a number divided by a power of ten. -/
inductive Value
  | int (p : Option ℤ)
  | shortReal (p : UInt16)
  | float (sign : UInt8) (number : UInt32) (point : UInt8)
  | string (text : Bytes)
deriving DecidableEq

/-- A line on the standard output. -/
structure Line where
  ip : Bytes
  port : UInt16
  topic : Bytes
  value : Value
deriving DecidableEq

inductive Printed
  | stdout (line : Line)
  | stderr (text : String)
deriving DecidableEq

/-- `p * (-1)` for an `int`; the least `int` has no negation. -/
def negate (p : ℤ) : Option ℤ := if p = -(2 ^ 31) then none else some (-p)

/-- The conversion of an unsigned word to `int`. -/
def toInt (number : UInt32) : ℤ := number.toBitVec.toInt

def processIntMessage (sendBuffer : Frame) : Value :=
  let sign := (sendBuffer.slice (topicLen + typeLen) signLen (by decide)).bytes.headD 0
  let number := wordOfBytes (sendBuffer.slice (topicLen + typeLen + signLen) 4 (by decide)).bytes
  let p := toInt (ntohl number)
  .int (if sign = 1 then negate p else some p)

def processShortRealMessage (sendBuffer : Frame) : Value :=
  .shortReal (ntohs (shortOfBytes (sendBuffer.slice (topicLen + typeLen) 2 (by decide)).bytes))

def processFloatMessage (sendBuffer : Frame) : Value :=
  let sign := (sendBuffer.slice (topicLen + typeLen) signLen (by decide)).bytes.headD 0
  let number := wordOfBytes (sendBuffer.slice (topicLen + typeLen + signLen) 4 (by decide)).bytes
  let module := (sendBuffer.slice (topicLen + typeLen + signLen + 4) 1 (by decide)).bytes.headD 0
  .float sign (ntohl number) module

/-- The local array has room for the whole content and a NUL behind it. -/
def processStringMessage (sendBuffer : Frame) : Value :=
  .string (cstr ((sendBuffer.slice (topicLen + typeLen) contentLen (by decide)).bytes ++ [0]))

/-- `beyond` is the memory behind the sixteen bytes copied to `IP_SERVER`, which
are printed as a string though no terminator is written behind them. `TOPIC` has no room
for the NUL at `TOPIC[TOPIC_LEN]`: the byte behind its block is taken to be nobody's. -/
def processMessage (beyond : Bytes) (sendBuffer : Frame) : Printed :=
  let topic := (sendBuffer.slice 0 topicLen (by decide)).bytes ++ [0]
  let type := (sendBuffer.slice topicLen 1 (by decide)).bytes.headD 0
  let ipServer := (sendBuffer.slice (contentLen + topicLen + typeLen) ipCharLen (by decide)).bytes
  let portServer := shortOfBytes
    (sendBuffer.slice (contentLen + topicLen + typeLen + ipCharLen) portLen (by decide)).bytes
  let line (value : Value) : Printed :=
    .stdout ⟨cstr (ipServer ++ beyond), ntohs portServer, cstr topic, value⟩
  if type = 0 then line (processIntMessage sendBuffer)
  else if type = 1 then line (processShortRealMessage sendBuffer)
  else if type = 2 then line (processFloatMessage sendBuffer)
  else if type = 3 then line (processStringMessage sendBuffer)
  else .stderr "Invalid message.\n"

end TopicBroker.Client
