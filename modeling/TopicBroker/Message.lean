import TopicBroker.ByteOrder

/-!
The lengths of message.h, the socket address of a datagram's sender and its
dotted-decimal text. `Stop` names the ways in which the server's loop can fail
to go on: an error exit with its message, an ordinary exit, an access that has
no defined outcome, and a system call return that the system never gives.
-/
namespace TopicBroker.Message

open ByteBlocks ByteOrder

abbrev nullLen : ℕ := 1
abbrev topicLen : ℕ := 50
abbrev contentLen : ℕ := 1500
abbrev idLen : ℕ := 10
abbrev bufferClientLen : ℕ := 1570
abbrev bufferServerLen : ℕ := 1551
abbrev ipCharLen : ℕ := 16
abbrev typeLen : ℕ := 1
abbrev portLen : ℕ := 2
abbrev signLen : ℕ := 1
abbrev commandSendLen : ℕ := 1

/-- The length with which the server sends every published message. -/
abbrev formatLen : ℕ := bufferServerLen + ipCharLen + 2 * nullLen + typeLen

/-- The byte that ends every frame. -/
abbrev carriageReturn : UInt8 := 13

abbrev CInt := BitVec 32

/-- A topic as the server stores it: the topic field and room for its NUL. -/
abbrev Topic := Block (topicLen + nullLen)

abbrev Frame := Block formatLen

/-- How a program ends: by DIE, by `exit`, by SIGPIPE, or in a way that C does not define;
the last case is an answer that no system gives. -/
inductive Stop
  | die (message : String)
  | exit (success : Bool)
  | brokenPipe
  | undefined
  | impossible
deriving DecidableEq

/-- A computation that goes on does so with the value of its first part. -/
theorem bind_eq_ok {α β : Type} {x : Except Stop α} {f : α → Except Stop β} {b : β} :
    (x >>= f) = .ok b ↔ ∃ a, x = .ok a ∧ f a = .ok b := by
  cases x with
  | error e =>
    constructor
    · intro h
      cases h
    · rintro ⟨a, h, _⟩
      cases h
  | ok a =>
    constructor
    · intro h
      exact ⟨a, rfl, h⟩
    · rintro ⟨a', h, hf⟩
      cases h
      exact hf

/-- An IPv4 address by its four octets. -/
structure InAddr where
  a : UInt8
  b : UInt8
  c : UInt8
  d : UInt8
deriving DecidableEq

/-- `sin_port` is in network order, as the system reports it. -/
structure SockaddrIn where
  sinAddr : InAddr
  sinPort : UInt16
deriving DecidableEq

def SockaddrIn.ofSender (ip : InAddr) (port : UInt16) : SockaddrIn := ⟨ip, htons port⟩

/-- The decimal text of an octet. -/
def octetText (b : UInt8) : Bytes := (Nat.toDigits 10 b.toNat).map fun c => UInt8.ofNat c.toNat

def dot : UInt8 := 46

def inetNtoa (ip : InAddr) : Bytes :=
  octetText ip.a ++ dot :: (octetText ip.b ++ dot :: (octetText ip.c ++ dot :: octetText ip.d))

private theorem octetText_table :
    (List.range 256).all (fun n => (octetText (UInt8.ofNat n)).length ≤ 3 ∧
      (octetText (UInt8.ofNat n)).all fun b => b ≠ 0) = true := by
  decide +kernel

theorem octetText_spec (b : UInt8) :
    (octetText b).length ≤ 3 ∧ ∀ c ∈ octetText b, c ≠ 0 := by
  have h := List.all_eq_true.mp octetText_table b.toNat (List.mem_range.mpr b.toNat_lt)
  rw [UInt8.ofNat_toNat] at h
  obtain ⟨hlength, hbytes⟩ := of_decide_eq_true h
  exact ⟨hlength, fun c hc => of_decide_eq_true (List.all_eq_true.mp hbytes c hc)⟩

/-- The text and its terminator always fit the sixteen bytes of `ipaddr`. -/
theorem inetNtoa_length (ip : InAddr) : (inetNtoa ip).length < ipCharLen := by
  have ha := (octetText_spec ip.a).1
  have hb := (octetText_spec ip.b).1
  have hc := (octetText_spec ip.c).1
  have hd := (octetText_spec ip.d).1
  simp only [inetNtoa, ipCharLen, List.length_append, List.length_cons]
  omega

theorem inetNtoa_ne_zero (ip : InAddr) : ∀ b ∈ inetNtoa ip, b ≠ 0 := by
  have hdot : dot ≠ 0 := by decide
  intro b hb
  simp only [inetNtoa, List.mem_append, List.mem_cons] at hb
  rcases hb with hb | rfl | hb | rfl | hb | rfl | hb
  · exact (octetText_spec ip.a).2 b hb
  · exact hdot
  · exact (octetText_spec ip.b).2 b hb
  · exact hdot
  · exact (octetText_spec ip.c).2 b hb
  · exact hdot
  · exact (octetText_spec ip.d).2 b hb

end TopicBroker.Message
