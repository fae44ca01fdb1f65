import TopicBroker.Client
import TopicBroker.Words

/-!
The command line of the subscriber, from `processInput`. `strtok` peels a token off
the string it is given and keeps the rest for its next call; it returns no token at
the end of the string, and a null pointer that is read has no defined outcome.
-/
namespace TopicBroker.CommandLine

open ByteBlocks ByteOrder Message Client Words

abbrev cmdSubscribe : ℕ := 9
abbrev cmdUnsubscribe : ℕ := 11
abbrev cmdExit : ℕ := 4

abbrev space : UInt8 := 32
abbrev newline : UInt8 := 10

/-- The word subscribe. -/
def subscribeText : Bytes := [115, 117, 98, 115, 99, 114, 105, 98, 101]

/-- The word unsubscribe. -/
def unsubscribeText : Bytes := [117, 110, 115, 117, 98, 115, 99, 114, 105, 98, 101]

/-- The word exit. -/
def exitText : Bytes := [101, 120, 105, 116]

/-- What one call of `fgets` stores: no more than fits with a terminator, and
nothing behind a newline. -/
structure InputLine where
  bytes : Bytes
  nonempty : bytes ≠ []
  fits : bytes.length < cmdLen
  newline_last : ∀ b ∈ bytes.dropLast, b ≠ newline

/-- The string in `cmd` after the call. -/
def fgets (line : InputLine) : Token where
  text := cstr line.bytes
  noNul := fun _ hb => ne_zero_of_mem_cstr hb
  fits := lt_of_le_of_lt (cstr_length_le _) line.fits

/-- A part of a token. -/
def part (s : Token) (text : Bytes) (h : text.Sublist s.text) : Token where
  text := text
  noNul := fun b hb => s.noNul b (h.subset hb)
  fits := lt_of_le_of_lt h.length_le s.fits

def among (delims : Bytes) (b : UInt8) : Bool := b ∈ delims

/-- The token, absent for a null pointer, and the string that the next call goes on with. -/
def strtok (delims : Bytes) (s : Token) : Option Token × Token :=
  match h : nextWord (among delims) s.text with
  | none => (none, part s [] (List.nil_sublist _))
  | some (text, rest) =>
    (some (part s text (nextWord_sublist h).1), part s rest (nextWord_sublist h).2)

def isspace (b : UInt8) : Bool := b = space ∨ (9 ≤ b ∧ b ≤ 13)

def isdigit (b : UInt8) : Bool := 48 ≤ b ∧ b ≤ 57

/-- Blanks, a sign and digits; a value that no `int` has is not defined. -/
def atoi (text : Bytes) : Except Stop CInt :=
  let s := text.dropWhile isspace
  let digits := if s.head? = some 45 ∨ s.head? = some 43 then s.tail else s
  let n : ℤ := (digits.takeWhile isdigit).foldl (fun n b => 10 * n + (b.toNat - 48)) 0
  let v := if s.head? = some 45 then -n else n
  if -(2 ^ 31) ≤ v ∧ v < 2 ^ 31 then .ok (BitVec.ofInt 32 v) else .error .undefined

/-- What standard input has when `select` returns: it is not in the set, it has a
line, or it is at its end and nothing is stored in `cmd`. -/
inductive Console
  | idle
  | line (line : InputLine)
  | ended

/-- The message that is sent, if any. -/
def processInput (sendBuffer : Frame) : Console → Except Stop (Option Bytes)
  | .idle => .ok none
  | .ended => .error .undefined
  | .line line =>
    match strtok [space, newline] (fgets line) with
    | (none, _) => .error .undefined
    | (some clientCmd, saved) =>
      if strncmp clientCmd.text subscribeText cmdSubscribe = 0 then
        let (topic, saved) := strtok [space] saved
        let (clientCmd, _) := strtok [space] saved
        match topic, clientCmd with
        | some topic, some clientCmd => do
          let sf ← atoi clientCmd.text
          .ok (some (subscribe sendBuffer topic sf).bytes)
        | _, _ => .error .undefined
      else if strncmp clientCmd.text unsubscribeText cmdUnsubscribe = 0 then
        match (strtok [space] saved).1 with
        | some topic => .ok (some (unsubscribe sendBuffer topic).bytes)
        | none => .error .undefined
      else if strncmp clientCmd.text exitText cmdExit = 0 then .error (.exit true)
      else .ok none

theorem strtok_none {delims : Bytes} {s : Token} (h : nextWord (among delims) s.text = none) :
    (strtok delims s).1 = none := by
  unfold strtok
  split
  · rfl
  · rename_i hsome
    rw [h] at hsome
    cases hsome

theorem strtok_some {delims : Bytes} {s : Token} {text rest : Bytes}
    (h : nextWord (among delims) s.text = some (text, rest)) :
    ∃ token saved, strtok delims s = (some token, saved) ∧ token.text = text ∧
      saved.text = rest := by
  unfold strtok
  split
  · rename_i hnone
    rw [h] at hnone
    cases hnone
  · rename_i hsome
    rw [h] at hsome
    cases hsome
    exact ⟨_, _, rfl, rfl, rfl⟩

end TopicBroker.CommandLine
