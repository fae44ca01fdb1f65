import Mathlib.Data.List.ReduceOption
import TopicBroker.Buffer

/-!
The registry of clients. A waiting queue holds what `queue_enq` was given: the
address of `temp`, a word of the stack that is the same at every call. `Stack`
keeps what that word points at, so a queued element is worth what the word is
worth when it is read. The word is dead by then, and the calls that are made between
two reads may leave something else in it.
-/
namespace TopicBroker.Registry

open ByteBlocks Message

/-- The addresses of stack words that outlive their function in a queue. -/
inductive StackWord
  | temp
deriving DecidableEq

/-- The frame a dead stack word still points at; `none` when it points at no readable frame. -/
structure Stack where
  temp : Option Frame
deriving DecidableEq

def Stack.load (stack : Stack) : StackWord → Option Frame
  | .temp => stack.temp

/-- What calls on the same stack leave in a dead word. -/
inductive Residue
  | kept
  | written (word : Option Frame)
deriving DecidableEq

def Stack.after (stack : Stack) : Residue → Stack
  | .kept => stack
  | .written word => ⟨word⟩

/-- A dead word that is read again and again, and what the calls before each read leave
in it; nothing is left where the list has ended. -/
structure DeadWord where
  stack : Stack
  calls : List Residue

/-- The word when it is read next. -/
def DeadWord.next (w : DeadWord) : DeadWord where
  stack := w.stack.after (w.calls.headD .kept)
  calls := w.calls.tail

/-- What the word points at in so many reads. -/
def DeadWord.contents : ℕ → DeadWord → List (Option Frame)
  | 0, _ => []
  | n + 1, w => w.next.stack.temp :: w.next.contents n

@[simp] theorem DeadWord.contents_length (n : ℕ) (w : DeadWord) : (w.contents n).length = n := by
  induction n generalizing w with
  | zero => rfl
  | succ n ih => rw [DeadWord.contents, List.length_cons, ih]

/-- A word that is left alone points at the same in every read. -/
theorem DeadWord.contents_kept {w : DeadWord} (h : ∀ r ∈ w.calls, r = .kept) (n : ℕ) :
    w.contents n = List.replicate n w.stack.temp := by
  induction n generalizing w with
  | zero => rfl
  | succ n ih =>
    have hhead : w.calls.headD .kept = .kept := by
      cases hcalls : w.calls with
      | nil => rfl
      | cons r rest => exact h r (by simp [hcalls])
    have hstack : w.next.stack = w.stack := by rw [DeadWord.next, hhead, Stack.after]
    have htail : ∀ r ∈ w.next.calls, r = .kept := fun r hr => h r (List.mem_of_mem_tail hr)
    rw [DeadWord.contents, ih htail, hstack, List.replicate_succ]

/-- The frames among what it points at. -/
def DeadWord.frames (n : ℕ) (w : DeadWord) : List Frame := (w.contents n).reduceOption

/-- As many frames as reads are what every one of the reads finds. -/
theorem DeadWord.frames_eq_iff {w : DeadWord} {n : ℕ} {frames : List Frame}
    (hlength : frames.length = n) : w.frames n = frames ↔ w.contents n = frames.map some := by
  induction frames generalizing w n with
  | nil =>
    subst hlength
    exact iff_of_true rfl rfl
  | cons frame rest ih =>
    subst hlength
    rw [List.length_cons, DeadWord.frames, DeadWord.contents, List.map_cons]
    cases htemp : w.next.stack.temp with
    | none =>
      have hle := List.reduceOption_length_le (w.next.contents rest.length)
      rw [DeadWord.contents_length] at hle
      refine iff_of_false ?_ (by simp)
      intro heq
      rw [List.reduceOption_cons_of_none] at heq
      rw [heq, List.length_cons] at hle
      omega
    | some frame' =>
      rw [List.reduceOption_cons_of_some, List.cons.injEq, List.cons.injEq, Option.some.injEq]
      exact and_congr_right fun _ => ih rfl

/-- `following` is the memory of the record behind the ID array. -/
structure Client where
  sock : ℤ
  ID : Block idLen
  following : Bytes
  topics : List Topic
  sfs : List CInt
  inWaiting : List StackWord
deriving DecidableEq

structure Send where
  sock : ℤ
  frame : Frame
deriving DecidableEq

def queueCreate : List StackWord := []

def queueEnq (q : List StackWord) (element : StackWord) : List StackWord := q ++ [element]

/-- A loop over all records that may change each of them. -/
def eachClient (f : Client → Except Stop Client) : List Client → Except Stop (List Client)
  | [] => .ok []
  | c :: rest => do
    let c' ← f c
    let rest' ← eachClient f rest
    .ok (c' :: rest')

theorem eachClient_ok {f : Client → Except Stop Client} {clients clients' : List Client}
    (h : eachClient f clients = .ok clients') :
    List.Forall₂ (fun c c' => f c = .ok c') clients clients' := by
  induction clients generalizing clients' with
  | nil =>
    cases h
    exact List.Forall₂.nil
  | cons c rest ih =>
    obtain ⟨c', hc, h⟩ := bind_eq_ok.mp h
    obtain ⟨rest', hrest, h⟩ := bind_eq_ok.mp h
    cases h
    exact List.Forall₂.cons hc (ih hrest)

theorem eachClient_eq_ok {f : Client → Except Stop Client} {clients clients' : List Client} :
    eachClient f clients = .ok clients' ↔
      List.Forall₂ (fun c c' => f c = .ok c') clients clients' := by
  constructor
  · exact eachClient_ok
  · intro h
    induction h with
    | nil => rfl
    | cons hc _ ih =>
      rw [eachClient, hc, ih]
      rfl

/-- A loop whose body never stops is a map. -/
theorem eachClient_map {f : Client → Except Stop Client} {g : Client → Client}
    (hf : ∀ c, f c = .ok (g c)) (clients : List Client) :
    eachClient f clients = .ok (clients.map g) := by
  induction clients with
  | nil => rfl
  | cons c rest ih =>
    rw [eachClient, hf, ih]
    rfl

end TopicBroker.Registry
