import TopicBroker.Grammar
import TopicBroker.Routing

/-!
A topic from the subscriber to the server's table and from a datagram to the
comparison. A subscribe request stores the topic it was given. An unsubscribe request
brings a topic as well, but the server compares with what its stack held.
-/
namespace TopicBroker.TopicWire

open ByteBlocks ByteOrder Message Frames Registry Requests Publish Words CommandLine
  CommandFraming Grammar Routing

/-- A topic that fits its field. -/
structure TopicText where
  text : Bytes
  nonempty : text ≠ []
  fits : text.length ≤ topicLen
  noNul : ∀ b ∈ text, b ≠ 0

/-- A topic that can be typed as one word. -/
structure TopicWord extends TopicText where
  plain : ∀ b ∈ text, b ≠ space ∧ b ≠ newline

def TopicText.token (topic : TopicText) : Client.Token where
  text := topic.text
  noNul := topic.noNul
  fits := lt_of_le_of_lt topic.fits (by decide)

theorem TopicText.cstr_field (topic : TopicText) :
    cstr (topicField topic.token).bytes = topic.text := by
  have hfits := topic.fits
  refine (cstr_fieldOf topic.token (topicLen + nullLen)).trans (List.take_of_length_le ?_)
  exact Nat.le_succ_of_le hfits

/-- A subscribe message that is read whole puts the topic and the flag in front. Wherever
the new entry is in its table later, a datagram makes one send or stores one message more
than without it exactly when its topic is the one the user gave. The other tables have
columns of one length, as in every run. -/
theorem subscribe_requested (topic : TopicText) (sf : CInt) (sendBuffer : Frame)
    (buffer : Block bufferServerLen) (held : Bytes) (sock : ℤ) (clients : List Client) :
    (Client.subscribe sendBuffer topic.token sf).bytes.length = 57 ∧
    ∃ entry : Topic, cstr entry.bytes = topic.text ∧
      handleRequest sock (buffer.receive (Client.subscribe sendBuffer topic.token sf).bytes) held
        clients = .ok (clients.map (subscribed entry sf sock)) ∧
      (∀ c ∈ clients, c.sock = sock → (subscribed entry sf sock c).topics.zip
        (subscribed entry sf sock c).sfs = (entry, sf) :: c.topics.zip c.sfs) ∧
      ∀ (before after : List Client) (c : Client) (front back : List (Topic × CInt))
        (data : Block bufferServerLen) (datagram : Bytes) (addr : SockaddrIn) (locals : UdpLocals)
        (stack : Stack), (∀ d ∈ before ++ after, d.topics.length = d.sfs.length) →
        ∃ p p' frame l r l' q r',
          receiveUdpMessage data datagram addr locals stack
            (before ++ withTable c (front ++ back) :: after) = .ok p ∧
          receiveUdpMessage data datagram addr locals stack
            (before ++ withTable c (front ++ (entry, sf) :: back) :: after) = .ok p' ∧
          (∀ format ipaddr,
            (formatBuffer format (receiveDatagram data datagram) ipaddr addr).1 = frame) ∧
          p.sends = l ++ r ∧ p'.sends = l ++ (if topic.text = cstr (datagram.take topicLen) ∧
            c.sock ≠ -1 then [⟨c.sock, frame⟩] else []) ++ r ∧
          p.clients.map Client.inWaiting = l' ++ q :: r' ∧
          p'.clients.map Client.inWaiting = l' ++ (q ++ if topic.text =
            cstr (datagram.take topicLen) ∧ c.sock = -1 ∧ sf = 1 then [.temp] else []) :: r' := by
  have hbytes := subscribe_bytes sendBuffer topic.token sf
  have hlength : (Client.subscribe sendBuffer topic.token sf).bytes.length = 57 := Block.size _
  have hdata := Block.receive_bytes_of_le buffer (Client.subscribe sendBuffer topic.token sf).bytes
    (by rw [hlength]; decide)
  rw [hbytes, List.cons_append, List.append_assoc _ [0]] at hdata
  refine ⟨hlength, topicField topic.token, topic.cstr_field, ?_, ?_, ?_⟩
  · rw [handleRequest, hbytes, requestOf_subscribe _ _ hdata]
    exact subscribe_eq _ sf sock clients
  · intro c _ hsock
    rw [subscribed, if_pos hsock, List.zip_cons_cons]
  · intro before after c front back data datagram addr locals stack haligned
    obtain ⟨p, p', frame, hp, hp', hframe, hadds⟩ := entry_routed haligned c front back
      (topicField topic.token, sf) data datagram addr locals stack
    obtain ⟨l, r, hsends, hsends'⟩ := hadds.sends
    obtain ⟨l', q, r', hqueues, hqueues'⟩ := hadds.queues
    rw [topic.cstr_field] at hsends' hqueues'
    exact ⟨p, p', frame, l, r, l', q, r', hp, hp', hframe, hsends, hsends', hqueues, hqueues'⟩

/-- The topic of one letter. -/
def letterWord : TopicWord where
  text := [116]
  nonempty := List.cons_ne_nil _ _
  fits := by decide
  noNul := by simp
  plain := by simp [space, newline]

/-- A client that has left. -/
def awayClient : Client where
  sock := -1
  ID := Block.fill idLen 97
  following := [0]
  topics := []
  sfs := []
  inWaiting := []

/-- A datagram with that topic, as the server routes it. -/
def routedTo (clients : List Client) : Except Stop Published :=
  receiveUdpMessage (Block.fill bufferServerLen 0) [116] (.ofSender ⟨127, 0, 0, 1⟩ 8080)
    ⟨Block.fill _ 0, Block.fill _ 0, Block.fill _ 0⟩ ⟨none⟩ clients

/-- The datagram is stored for a client that has left, and by the new entry alone. -/
theorem subscribe_requested_stored :
    ∃ entry p p', cstr entry.bytes = [116] ∧ routedTo [withTable awayClient []] = .ok p ∧
      p.clients.map Client.inWaiting = [[]] ∧
      routedTo [withTable awayClient [(entry, 1)]] = .ok p' ∧
      p'.clients.map Client.inWaiting = [[.temp]] := by
  obtain ⟨_, entry, htext, _, _, hrouted⟩ := subscribe_requested letterWord.toTopicText 1
    (Block.fill formatLen 0) (Block.fill bufferServerLen 0) [] 5 []
  obtain ⟨p, p', frame, l, r, l', q, r', hp, hp', _, _, _, hqueues, hqueues'⟩ :=
    hrouted [] [] awayClient [] [] (Block.fill bufferServerLen 0) [116]
      (.ofSender ⟨127, 0, 0, 1⟩ 8080) ⟨Block.fill _ 0, Block.fill _ 0, Block.fill _ 0⟩ ⟨none⟩
      fun d hd => absurd hd List.not_mem_nil
  have hempty : p.clients.map Client.inWaiting = [[]] := by
    cases hp
    rfl
  have hone : l' ++ q :: r' = [[]] := hqueues.symm.trans hempty
  obtain ⟨rfl, rfl, rfl⟩ : l' = [] ∧ q = [] ∧ r' = [] := by
    cases l' with
    | nil => simpa using hone
    | cons a rest => simp at hone
  have hmatches : letterWord.text = cstr (([116] : Bytes).take topicLen) ∧ awayClient.sock = -1 ∧
      (1 : CInt) = 1 := by decide
  rw [if_pos hmatches] at hqueues'
  exact ⟨entry, p, p', htext, hp, hempty, hp', hqueues'⟩

/-- The line of an unsubscribe, as the user ends it. -/
def unsubscribeLine (topic : TopicWord) : InputLine where
  bytes := unsubscribeText ++ space :: topic.text ++ [newline]
  nonempty := List.append_ne_nil_of_right_ne_nil _ (List.cons_ne_nil _ _)
  fits := by
    have hfits := topic.fits
    simp only [List.length_append, List.length_cons, List.length_nil, unsubscribeText, topicLen,
      Client.cmdLen] at hfits ⊢
    omega
  newline_last := by
    intro b hb
    rw [List.dropLast_concat] at hb
    rcases List.mem_append.mp hb with hb | hb
    · have hword : ∀ c ∈ unsubscribeText, c ≠ newline := by simp [unsubscribeText, newline]
      exact hword b hb
    · rcases List.mem_cons.mp hb with rfl | hb
      · decide
      · exact (topic.plain b hb).2

theorem lineWords_unsubscribeLine (topic : TopicWord) :
    lineWords (unsubscribeLine topic) = [unsubscribeText, topic.text] := by
  have hcontent : content (unsubscribeLine topic) = [] ++ unsubscribeText ++ space :: topic.text := by
    have hlast : (unsubscribeLine topic).bytes.getLast? = some newline := List.getLast?_concat
    rw [content, if_pos hlast]
    exact List.dropLast_concat
  have hcommand : Split (among [space]) [] unsubscribeText (space :: topic.text) := {
    gap := fun b hb => by cases hb
    nonempty := List.cons_ne_nil _ _
    word := by simp [unsubscribeText, among, space]
    rest := fun b hb => by
      cases hb
      rfl
  }
  have htopic : Split (among [space]) [] topic.text [] := {
    gap := fun b hb => by cases hb
    nonempty := topic.nonempty
    word := fun b hb => by simpa [among] using (topic.plain b hb).1
    rest := fun b hb => by cases hb
  }
  have hlast := htopic.words_eq
  rw [List.append_nil, List.nil_append] at hlast
  rw [lineWords, hcontent, hcommand.words_eq, List.tail_cons, hlast]
  rfl

/-- An unsubscribe that is typed and read whole reaches the server's `unsubscribe` with
the topic that the local array held, whatever the message says; and the message says
something else unless the topic fills its field. -/
theorem unsubscribed_topic_iff (topic : TopicWord) (sendBuffer : Frame)
    (buffer : Block bufferServerLen) (held : Bytes) :
    ∃ message, processInput sendBuffer (.line (unsubscribeLine topic)) = .ok (some message) ∧
      message.length = 51 ∧
      (∀ sock clients, handleRequest sock (buffer.receive message) held clients =
        unsubscribe held sock clients) ∧
      ((∃ t, requestOf (buffer.receive message) held = .unsubscribe t ∧ cstr t = topic.text) ↔
        cstr held = topic.text) ∧
      (cstr (message.drop 1) = topic.text ↔ topic.text.length = topicLen) := by
  obtain ⟨token, hrun, htext⟩ := unsubscribe_token sendBuffer (lineWords_unsubscribeLine topic)
    topic.noNul
  have hnewline : token.text = topic.text ++ [newline] := by
    rcases htext with ⟨_, hsuffix⟩ | ⟨htext, _⟩
    · refine absurd ⟨unsubscribeText ++ [space], ?_⟩ hsuffix
      rw [unsubscribeLine]
      simp only [List.append_assoc, List.cons_append, List.nil_append]
    · exact htext
  have hbytes := unsubscribe_bytes sendBuffer token
  have hlength : (Client.unsubscribe sendBuffer token).bytes.length = 51 := Block.size _
  have hdata := Block.receive_bytes_of_le buffer (Client.unsubscribe sendBuffer token).bytes
    (by rw [hlength]; decide)
  rw [hbytes, List.cons_append] at hdata
  have hrequest : requestOf (buffer.receive (Client.unsubscribe sendBuffer token).bytes) held =
      .unsubscribe held := by
    rw [hbytes]
    exact requestOf_unsubscribe _ _ hdata
  refine ⟨_, hrun, hlength, ?_, ?_, ?_⟩
  · intro sock clients
    rw [handleRequest, hrequest]
  · rw [hrequest]
    constructor
    · rintro ⟨t, ht, htopic⟩
      cases ht
      exact htopic
    · exact fun h => ⟨held, rfl, h⟩
  · rw [hbytes, List.drop_succ_cons, List.drop_zero, cstr_fieldOf, hnewline,
      take_newline topic.fits]

/-- What the subscriber sends for the line of that topic. -/
def letterMessage : Bytes := 117 :: fieldOf topicLen [116, newline]

/-- The array still holds the topic of an earlier request for another topic. -/
theorem stale_topic_unsubscribed :
    processInput (Block.fill formatLen 0) (.line (unsubscribeLine letterWord)) =
        .ok (some letterMessage) ∧
      requestOf ((Block.fill bufferServerLen 0).receive letterMessage) [117, 0] =
        .unsubscribe [117, 0] ∧ cstr [117, 0] ≠ letterWord.text := by
  refine ⟨?_, ?_, ?_⟩
  · rfl
  · decide +kernel
  · decide

end TopicBroker.TopicWire
