import TopicBroker.Upstream

/-!
What the subscriber makes of every line, not only of the lines of its grammar. The
words of a line are separated by spaces, and the newline is a letter like any other
unless it would be in the first word. So a newline behind a space is a word of its own,
and a command with too few words, or with a flag that no `int` has, has no defined
outcome. In a network, what a subscriber says behind its ID are the requests among the
meanings of the lines that were typed, in their order; an exit is the last line, and so is
a line that means nothing, of which the subscriber dies.
-/
namespace TopicBroker.Commands

open ByteBlocks ByteOrder Message Client Words CommandLine CommandFraming Grammar MainLoop Runs
  ReceiveLoop Network Upstream

/-- A topic and a flag with a value; what comes after them is not looked at. -/
def subscribeOf : List Bytes → Option Intent
  | topic :: flag :: _ =>
    match atoi flag with
    | .ok sf => some (.subscribe (topic.take 51) sf)
    | .error _ => none
  | _ => none

def unsubscribeOf : List Bytes → Option Intent
  | topic :: _ => some (.unsubscribe (topic.take topicLen))
  | [] => none

/-- What a line does by its words, none where that is not defined. -/
def meaningOf : List Bytes → Option Intent
  | [] => none
  | command :: arguments =>
    if subscribeText <+: command then subscribeOf arguments
    else if unsubscribeText <+: command then unsubscribeOf arguments
    else if exitText <+: command then some .exit
    else if command = [newline] then none
    else some .other

/-- The words of what `fgets` stored, up to a NUL. -/
def typedWords (line : InputLine) : List Bytes := words (among [space]) (cstr line.bytes)

section Tokens

variable {s : Token} {ws : List Bytes} {w : Bytes}

theorem strtok_of_words_nil (h : words (among [space]) s.text = []) :
    (strtok [space] s).1 = none := by
  apply strtok_none
  rw [nextWord_of_gap (words_eq_nil h)]

theorem strtok_of_words_cons (h : words (among [space]) s.text = w :: ws) :
    ∃ token saved, strtok [space] s = (some token, saved) ∧ token.text = w ∧
      words (among [space]) saved.text = ws := by
  obtain ⟨gap, rest, htext, hsplit, hrest⟩ := words_eq_cons h
  have hnext := hsplit.nextWord_eq
  rw [← htext] at hnext
  obtain ⟨token, saved, htok, hw, hsaved⟩ := strtok_some hnext
  refine ⟨token, saved, htok, hw, ?_⟩
  rw [hsaved, hrest]

end Tokens

section FirstWord

variable {line : InputLine} {w r : Bytes}

/-- A newline is at the end of a line, or a NUL comes before it. -/
theorem newline_last_cstr (line : InputLine) {front rest : Bytes}
    (h : cstr line.bytes = front ++ newline :: rest) : newline ∉ front ∧ rest = [] := by
  obtain ⟨behind, hbehind⟩ : cstr line.bytes <+: line.bytes := List.takeWhile_prefix _
  have hbytes : line.bytes = front ++ newline :: (rest ++ behind) := by
    rw [← hbehind, h, List.append_assoc, List.cons_append]
  have hdrop : line.bytes.dropLast = front ++ (newline :: (rest ++ behind)).dropLast := by
    rw [hbytes, List.dropLast_append_of_ne_nil (List.cons_ne_nil _ _)]
  constructor
  · intro hmem
    apply line.newline_last newline _ rfl
    rw [hdrop]
    exact List.mem_append_left _ hmem
  · cases hrest : rest ++ behind with
    | nil => exact (List.append_eq_nil_iff.mp hrest).1
    | cons b more =>
      refine absurd rfl (line.newline_last newline ?_)
      rw [hdrop, hrest, List.dropLast_cons_of_ne_nil (List.cons_ne_nil _ _)]
      exact List.mem_append_right _ (List.mem_cons_self ..)

theorem among_space_iff (b : UInt8) : among [space] b = true ↔ b = space := by simp [among]

theorem among_either_iff (b : UInt8) :
    among [space, newline] b = true ↔ b = space ∨ b = newline := by
  simp [among]

/-- A line without a first word is blank, or its only word is the newline. -/
theorem typedWords_of_blank (h : firstWord line = none) :
    typedWords line = [] ∨ typedWords line = [[newline]] := by
  have hblank : ∀ b ∈ cstr line.bytes, among [space, newline] b = true := by
    rcases exists_split (among [space, newline]) (cstr line.bytes) with
      hgap | ⟨_, _, _, hline, hsplit⟩
    · exact hgap
    · rw [firstWord, hline, hsplit.nextWord_eq] at h
      cases h
  by_cases hmem : newline ∈ cstr line.bytes
  · obtain ⟨front, rest, hline⟩ := List.append_of_mem hmem
    obtain ⟨hfront, rfl⟩ := newline_last_cstr line hline
    have hsplit : Split (among [space]) front [newline] [] := {
      gap := fun b hb => by
        rw [hline] at hblank
        rcases (among_either_iff b).mp (hblank b (List.mem_append_left _ hb)) with hspace | rfl
        · exact (among_space_iff b).mpr hspace
        · exact absurd hb hfront
      nonempty := List.cons_ne_nil _ _
      word := fun b hb => by
        rw [List.mem_singleton.mp hb]
        rfl
      rest := fun b hb => by cases hb
    }
    have hwords := hsplit.words_eq
    rw [List.append_nil, ← hline] at hwords
    exact Or.inr hwords
  · refine Or.inl (words_of_gap fun b hb => ?_)
    rcases (among_either_iff b).mp (hblank b hb) with hspace | rfl
    · exact (among_space_iff b).mpr hspace
    · exact absurd hb hmem

/-- The first word of a line, with the newline behind it or not. -/
theorem typedWords_of_word (h : firstWord line = some (w, r)) :
    newline ∉ w ∧ w ≠ [] ∧
      (typedWords line = w :: words (among [space]) r ∨
        typedWords line = [w ++ [newline]] ∧ r = []) := by
  obtain ⟨gap, rest, hline, hsplit, rfl⟩ := nextWord_eq_some h
  have hw : newline ∉ w := by
    intro hmem
    have hsep := hsplit.word newline hmem
    rw [(among_either_iff newline).mpr (Or.inr rfl)] at hsep
    cases hsep
  have hspaces : ∀ b ∈ gap, among [space] b = true := by
    intro b hb
    rw [among_space_iff]
    rcases (among_either_iff b).mp (hsplit.gap b hb) with hspace | rfl
    · exact hspace
    · obtain ⟨front, back, rfl⟩ := List.append_of_mem hb
      have hinside : cstr line.bytes = front ++ newline :: (back ++ w ++ rest) := by
        rw [hline]
        simp only [List.append_assoc, List.cons_append]
      have hnil := (List.append_eq_nil_iff.mp (newline_last_cstr line hinside).2).1
      exact absurd (List.append_eq_nil_iff.mp hnil).2 hsplit.nonempty
  have hletters : ∀ b ∈ w, among [space] b = false := by
    intro b hb
    have hsep := hsplit.word b hb
    simp only [among, List.mem_cons, List.not_mem_nil, or_false, decide_eq_false_iff_not,
      not_or] at hsep
    simp only [among, List.mem_singleton, decide_eq_false_iff_not]
    exact hsep.1
  refine ⟨hw, hsplit.nonempty, ?_⟩
  rw [typedWords, hline]
  cases rest with
  | nil =>
    have hsplit' : Split (among [space]) gap w [] :=
      ⟨hspaces, hsplit.nonempty, hletters, fun b hb => by cases hb⟩
    exact Or.inl hsplit'.words_eq
  | cons c tail =>
    rcases (among_either_iff c).mp (hsplit.rest c rfl) with rfl | rfl
    · have hsplit' : Split (among [space]) gap w (space :: tail) :=
        ⟨hspaces, hsplit.nonempty, hletters, fun b hb => by cases hb; rfl⟩
      exact Or.inl hsplit'.words_eq
    · -- the newline ends the word and the line, and a space would not end it there
      obtain ⟨_, rfl⟩ := newline_last_cstr line hline
      have hsplit' : Split (among [space]) gap (w ++ [newline]) [] := {
        gap := hspaces
        nonempty := List.append_ne_nil_of_left_ne_nil hsplit.nonempty _
        word := fun b hb => by
          rcases List.mem_append.mp hb with hb | hb
          · exact hletters b hb
          · rw [List.mem_singleton.mp hb]
            rfl
        rest := fun b hb => by cases hb
      }
      have hwords := hsplit'.words_eq
      rw [List.append_nil, ← List.append_assoc] at hwords
      exact Or.inr ⟨hwords, rfl⟩

/-- The newline behind a first word is in no command word. -/
theorem prefix_newline_iff {text : Bytes} (h : newline ∉ text) :
    text <+: w ++ [newline] ↔ text <+: w := by
  rw [List.prefix_concat_iff]
  constructor
  · rintro (rfl | hprefix)
    · exact absurd (List.mem_append_right w (List.mem_singleton_self newline)) h
    · exact hprefix
  · exact Or.inr

end FirstWord

section Lines

variable (sendBuffer : Frame) {line : InputLine} {w r : Bytes}

/-- What was done is what is meant, and it is undefined only where nothing is meant. -/
structure Means (done : Except Stop (Option Bytes)) (meant : Option Intent) : Prop where
  shown_eq : shown done = meant
  undefined_iff : done = .error .undefined ↔ meant = none

theorem means_undefined : Means (.error .undefined) none := ⟨rfl, iff_of_true rfl rfl⟩

theorem means_subscribe (topic : Token) (sf : CInt) :
    Means (.ok (some (Client.subscribe sendBuffer topic sf).bytes))
      (some (.subscribe (topic.text.take 51) sf)) :=
  ⟨carried_subscribe sendBuffer topic sf, iff_of_false (by simp) (by simp)⟩

theorem means_unsubscribe (topic : Token) :
    Means (.ok (some (Client.unsubscribe sendBuffer topic).bytes))
      (some (.unsubscribe (topic.text.take topicLen))) :=
  ⟨carried_unsubscribe sendBuffer topic, iff_of_false (by simp) (by simp)⟩

theorem atoi_error {text : Bytes} {e : Stop} (h : atoi text = .error e) : e = .undefined := by
  unfold atoi at h
  extract_lets at h
  split at h
  · cases h
  · cases h
    rfl

/-- A subscribe needs two more words, and the second one has a value. -/
theorem means_of_subscribe (saved : Token) :
    Means (match (strtok [space] saved).1, (strtok [space] (strtok [space] saved).2).1 with
        | some topic, some flag => do
          let sf ← atoi flag.text
          .ok (some (Client.subscribe sendBuffer topic sf).bytes)
        | _, _ => .error .undefined)
      (subscribeOf (words (among [space]) saved.text)) := by
  cases hwords : words (among [space]) saved.text with
  | nil =>
    rw [strtok_of_words_nil hwords]
    exact means_undefined
  | cons topicText ws =>
    obtain ⟨topic, saved', htopic, rfl, hrest⟩ := strtok_of_words_cons hwords
    rw [htopic]
    cases ws with
    | nil =>
      simp only [strtok_of_words_nil hrest]
      exact means_undefined
    | cons flagText more =>
      obtain ⟨flag, _, hflag, rfl, _⟩ := strtok_of_words_cons hrest
      simp only [hflag]
      cases hvalue : atoi flag.text with
      | error e =>
        rw [atoi_error hvalue, subscribeOf, hvalue]
        exact means_undefined
      | ok sf =>
        rw [subscribeOf, hvalue]
        exact means_subscribe sendBuffer topic sf

/-- An unsubscribe needs one more word. -/
theorem means_of_unsubscribe (saved : Token) :
    Means (match (strtok [space] saved).1 with
        | some topic => .ok (some (Client.unsubscribe sendBuffer topic).bytes)
        | none => .error .undefined)
      (unsubscribeOf (words (among [space]) saved.text)) := by
  cases hwords : words (among [space]) saved.text with
  | nil =>
    rw [strtok_of_words_nil hwords]
    exact means_undefined
  | cons topicText ws =>
    obtain ⟨topic, _, htopic, rfl, _⟩ := strtok_of_words_cons hwords
    rw [htopic]
    exact means_unsubscribe sendBuffer topic

/-- A first word and the word of the line that it is in begin with the same commands. -/
theorem typedWords_command (h : firstWord line = some (w, r)) :
    ∃ command, typedWords line = command :: words (among [space]) r ∧ command ≠ [newline] ∧
      (subscribeText <+: w ↔ subscribeText <+: command) ∧
      (unsubscribeText <+: w ↔ unsubscribeText <+: command) ∧
      (exitText <+: w ↔ exitText <+: command) := by
  obtain ⟨hnewline, hne, htyped | ⟨htyped, rfl⟩⟩ := typedWords_of_word h
  · refine ⟨w, htyped, ?_, Iff.rfl, Iff.rfl, Iff.rfl⟩
    rintro rfl
    exact hnewline (List.mem_singleton_self newline)
  · refine ⟨w ++ [newline], htyped, ?_, ?_, ?_, ?_⟩
    · intro heq
      exact hne (List.append_left_eq_self.mp heq)
    · exact (prefix_newline_iff (by decide)).symm
    · exact (prefix_newline_iff (by decide)).symm
    · exact (prefix_newline_iff (by decide)).symm

theorem means_of_line (line : InputLine) :
    Means (processInput sendBuffer (.line line)) (meaningOf (typedWords line)) := by
  cases hfirst : firstWord line with
  | none =>
    rw [processInput_blank sendBuffer hfirst]
    rcases typedWords_of_blank hfirst with htyped | htyped
    · rw [htyped]
      exact means_undefined
    · rw [htyped]
      exact means_undefined
  | some split =>
    obtain ⟨w, r⟩ := split
    obtain ⟨saved, rfl, hrun⟩ := processInput_word sendBuffer hfirst
    obtain ⟨command, htyped, hcommand, hsub, hunsub, hexit⟩ := typedWords_command hfirst
    rw [hrun, htyped]
    by_cases hs : subscribeText <+: w
    · rw [if_pos hs, meaningOf, if_pos (hsub.mp hs)]
      exact means_of_subscribe sendBuffer saved
    · rw [if_neg hs, meaningOf, if_neg (mt hsub.mpr hs)]
      by_cases hu : unsubscribeText <+: w
      · rw [if_pos hu, if_pos (hunsub.mp hu)]
        exact means_of_unsubscribe sendBuffer saved
      · rw [if_neg hu, if_neg (mt hunsub.mpr hu)]
        by_cases he : exitText <+: w
        · rw [if_pos he, if_pos (hexit.mp he)]
          exact ⟨rfl, iff_of_false (by simp) (by simp)⟩
        · rw [if_neg he, if_neg (mt hexit.mpr he), if_neg hcommand]
          exact ⟨rfl, iff_of_false (by simp) (by simp)⟩

end Lines

/-- Every line does what its words mean, and its outcome is undefined on exactly the
lines whose words mean nothing. -/
theorem every_line (sendBuffer : Frame) (line : InputLine) :
    shown (processInput sendBuffer (.line line)) = meaningOf (typedWords line) ∧
      (processInput sendBuffer (.line line) = .error .undefined ↔
        meaningOf (typedWords line) = none) := by
  have h := means_of_line sendBuffer line
  exact ⟨h.shown_eq, h.undefined_iff⟩

/-- The line that is typed in a step at the console of a connection. -/
def typedIn (k : ℕ) (e : Net × Network.Event) : Option InputLine :=
  match e.2 with
  | .console conn (.line line) _ => if conn = k then some line else none
  | _ => none

def typed (k : ℕ) (tr : List (Net × Network.Event)) : List InputLine := tr.filterMap (typedIn k)

def lineMeaning (line : InputLine) : Option Intent := meaningOf (typedWords line)

def isRequest : Option Intent → Bool
  | some (.subscribe _ _) => true
  | some (.unsubscribe _) => true
  | _ => false

/-- The subscriber ends at an exit, and at a line that means nothing. -/
def EndsAt (meant : Option Intent) : Prop := meant = some .exit ∨ meant = none

/-- What was said are the requests among the meanings, behind an ID, and nothing is typed
behind a line at which the subscriber ends. -/
structure Voiced (lines : List InputLine) (spoken : List Said) : Prop where
  requests : ∃ id commands, spoken = .id id :: commands ∧
    commands.map (fun c => carried c.bytes) = (lines.map lineMeaning).filter isRequest
  ends_last : ∀ line ∈ lines.dropLast, ¬ EndsAt (lineMeaning line)

section Steps

variable {cfg : Config} {tr : List (Net × Network.Event)} {n m : Net} {e : Network.Event} {k : ℕ}
  {p p' : Party}

theorem typed_concat (k : ℕ) (e : Net × Network.Event) :
    typed k (tr ++ [e]) = typed k tr ++ (typedIn k e).toList := by
  rw [typed, typed, List.filterMap_append]
  cases h : typedIn k e <;> simp [h]

/-- What one step at a console adds. -/
structure Adds (line : Option InputLine) (spoken : Option Said) (running : Bool) : Prop where
  requests : spoken.toList.map (fun c => carried c.bytes) =
    (line.toList.map lineMeaning).filter isRequest
  ends : ∀ l ∈ line, EndsAt (lineMeaning l) → running = false

theorem adds_nothing (running : Bool) : Adds none none running := ⟨rfl, fun l hl => by cases hl⟩

theorem Voiced.add {lines : List InputLine} {spoken : List Said} {line : Option InputLine}
    {more : Option Said} {running : Bool} (h : Voiced lines spoken) (hnew : Adds line more running)
    (hopen : ∀ l ∈ lines, ¬ EndsAt (lineMeaning l)) :
    Voiced (lines ++ line.toList) (spoken ++ more.toList) := by
  obtain ⟨id, commands, rfl, hcommands⟩ := h.requests
  refine ⟨⟨id, commands ++ more.toList, rfl, ?_⟩, ?_⟩
  · rw [List.map_append, hcommands, hnew.requests, List.map_append, List.filter_append]
  · intro l hl
    apply hopen
    cases line with
    | none =>
      rw [Option.toList_none, List.append_nil] at hl
      exact List.mem_of_mem_dropLast hl
    | some last => rwa [Option.toList_some, List.dropLast_concat] at hl

/-- The request of a message that was said. -/
theorem requested_carried {message : Bytes} (h : Requested (.command message)) :
    isRequest (carried message) = true := by
  cases h with
  | subscribe sendBuffer topic sf =>
    rw [carried_subscribe sendBuffer topic sf]
    rfl
  | unsubscribe sendBuffer topic =>
    rw [carried_unsubscribe sendBuffer topic]
    rfl

/-- What is said at the console of a running subscriber is a request if the line is one, and
at a line without a meaning, as at an exit, the subscriber ends. -/
theorem console_adds {console : Console} {left : Frame} (hp : n.parties[k]? = some p)
    (h : p.console console left = some p') :
    p.running = true ∧ Adds (typedIn k (n, .console k console left))
      (saidIn k (n, .console k console left)) p'.running := by
  unfold Party.console at h
  simp only [saidIn, if_true, hp, Option.bind_some]
  split at h
  · rename_i hcond
    refine ⟨hcond.1, ?_⟩
    cases console with
    | idle => exact adds_nothing _
    | ended => exact adds_nothing _
    | line line =>
      have hline : shown (processInput p.process.sendBuffer (.line line)) = lineMeaning line :=
        (means_of_line p.process.sendBuffer line).shown_eq
      simp only [typedIn, if_true]
      cases hrun : processInput p.process.sendBuffer (.line line) with
      | ok message =>
        rw [hrun] at hline
        cases message with
        | none =>
          constructor
          · rw [Option.toList_some, List.map_singleton, ← hline]
            rfl
          · rintro l ⟨⟩ (hexit | hnothing)
            · rw [← hline] at hexit
              cases hexit
            · rw [← hline] at hnothing
              cases hnothing
        | some message =>
          have hrequest := requested_carried (processInput_requested hrun)
          have hcarried : carried message = lineMeaning line := hline
          rw [hcarried] at hrequest
          constructor
          · rw [Option.toList_some, List.map_singleton, List.filter_cons_of_pos hrequest, ← hcarried]
            rfl
          · rintro l ⟨⟩ (hexit | hnothing)
            · rw [hexit] at hrequest
              cases hrequest
            · rw [hnothing] at hrequest
              cases hrequest
      | error stop =>
        rw [hrun] at hline h
        cases h
        refine ⟨?_, fun _ _ _ => rfl⟩
        rw [Option.toList_some, List.map_singleton, ← hline]
        cases stop with
        | exit success => cases success <;> rfl
        | _ => rfl
  · cases h

/-- A subscriber that has ended stays so. -/
theorem acts_stopped (h : Acts e k p p') (hstop : p.running = false) : p'.running = false := by
  cases h with
  | console hconsole =>
    unfold Party.console at hconsole
    rw [if_neg (by simp [hstop])] at hconsole
    cases hconsole
  | recv hrecv =>
    unfold Party.recv at hrecv
    rw [if_neg (by simp [hstop])] at hrecv
    cases hrecv
  | fail => rfl

theorem acts_adds (hp : n.parties[k]? = some p) (h : Acts e k p p') :
    Adds (typedIn k (n, e)) (saidIn k (n, e)) p'.running ∧
      (p.running = false → typedIn k (n, e) = none ∧ saidIn k (n, e) = none) := by
  cases h with
  | console hconsole =>
    obtain ⟨hrunning, hadds⟩ := console_adds hp hconsole
    exact ⟨hadds, fun hstop => by rw [hrunning] at hstop; cases hstop⟩
  | recv _ => exact ⟨adds_nothing _, fun _ => ⟨rfl, rfl⟩⟩
  | fail => exact ⟨adds_nothing _, fun _ => ⟨rfl, rfl⟩⟩

theorem typedIn_other {conn : ℕ} (h : Acts e conn p p') (hne : conn ≠ k) :
    typedIn k (n, e) = none := by
  cases h with
  | @console _ console _ _ _ _ => cases console <;> simp [typedIn, hne]
  | recv _ => rfl
  | fail => rfl

/-- The server's reads end no subscriber and start none. -/
theorem taken_running {i : Input} {parties : List Party} (h : n.taken i = some parties)
    (hp : parties[k]? = some p) : ∃ q : Party, n.parties[k]? = some q ∧ q.running = p.running := by
  unfold Net.taken at h
  split at h
  · split at h
    · cases h
      exact ⟨p, hp, rfl⟩
    · cases h
  · obtain ⟨conn, _, h⟩ := Option.bind_eq_some_iff.mp h
    obtain ⟨q, hq, h⟩ := Option.bind_eq_some_iff.mp h
    split at h
    · cases h
      by_cases hk : conn = k
      · subst hk
        rw [List.getElem?_set_self (List.getElem?_eq_some_iff.mp hq).1] at hp
        cases hp
        exact ⟨q, hq, rfl⟩
      · rw [List.getElem?_set_ne hk] at hp
        exact ⟨p, hp, rfl⟩
    · cases h
  · cases h
    exact ⟨p, hp, rfl⟩

/-- What was typed and said on a connection, and nothing before it is there. -/
structure Following (tr : List (Net × Network.Event)) (n : Net) (k : ℕ) : Prop where
  voiced : ∀ p : Party, n.parties[k]? = some p → Voiced (typed k tr) (said k tr) ∧
    ∀ line ∈ typed k tr, EndsAt (lineMeaning line) → p.running = false
  blank : n.parties.length ≤ k → typed k tr = [] ∧ said k tr = []

private theorem Following.start (h : Following tr n k) (process : Subscriber) (argv argument : Bytes) :
    Following (tr ++ [(n, .start process argv argument)])
      { n with parties := n.parties ++ [started process argv argument] } k := by
  have htyped : typed k (tr ++ [(n, .start process argv argument)]) = typed k tr := by
    rw [typed_concat, typedIn, Option.toList_none, List.append_nil]
  have hsaid : said k (tr ++ [(n, .start process argv argument)]) =
      said k tr ++ (saidIn k (n, .start process argv argument)).toList := said_concat k _
  by_cases hk : n.parties.length = k
  · simp only [saidIn, if_pos hk, Option.toList_some] at hsaid
    obtain ⟨hnone, hunsaid⟩ := h.blank (le_of_eq hk)
    constructor
    · intro p _
      rw [htyped, hnone, hsaid, hunsaid, List.nil_append]
      exact ⟨⟨⟨(sendId process.sendBuffer argument).bytes, [], rfl, rfl⟩,
        fun line hline => absurd hline List.not_mem_nil⟩,
        fun line hline => absurd hline List.not_mem_nil⟩
    · intro hle
      rw [List.length_append, List.length_singleton] at hle
      omega
  · simp only [saidIn, if_neg hk, Option.toList_none, List.append_nil] at hsaid
    constructor
    · intro p hp
      have hlt : k < n.parties.length := by
        have hbound := (List.getElem?_eq_some_iff.mp hp).1
        rw [List.length_append, List.length_singleton] at hbound
        omega
      rw [List.getElem?_append_left hlt] at hp
      rw [htyped, hsaid]
      exact h.voiced p hp
    · intro hle
      rw [List.length_append, List.length_singleton] at hle
      rw [htyped, hsaid]
      exact h.blank (by omega)

private theorem Following.acts {conn : ℕ} (h : Following tr n k) (hp : n.parties[conn]? = some p)
    (hacts : Acts e conn p p') :
    Following (tr ++ [(n, e)]) { n with parties := n.parties.set conn p' } k := by
  have hconn := (List.getElem?_eq_some_iff.mp hp).1
  by_cases hk : conn = k
  · subst hk
    constructor
    · intro q hq
      rw [List.getElem?_set_self hconn, Option.some.injEq] at hq
      subst hq
      obtain ⟨hvoiced, hends⟩ := h.voiced p hp
      obtain ⟨hadds, hquiet⟩ := acts_adds hp hacts
      rw [typed_concat, said_concat]
      by_cases hstop : p.running = false
      · rw [(hquiet hstop).1, (hquiet hstop).2, Option.toList_none, Option.toList_none,
          List.append_nil, List.append_nil]
        exact ⟨hvoiced, fun _ _ _ => acts_stopped hacts hstop⟩
      · refine ⟨hvoiced.add hadds fun line hline hend => hstop (hends line hline hend), ?_⟩
        intro line hline hend
        rcases List.mem_append.mp hline with hold | hnew
        · exact absurd (hends line hold hend) hstop
        · exact hadds.ends line (Option.mem_toList.mp hnew) hend
    · intro hle
      rw [List.length_set] at hle
      omega
  · have htyped : typed k (tr ++ [(n, e)]) = typed k tr := by
      rw [typed_concat, typedIn_other hacts hk, Option.toList_none, List.append_nil]
    have hsaid : said k (tr ++ [(n, e)]) = said k tr := by
      rw [said_concat, (acts_said hacts).1 hk, Option.toList_none, List.append_nil]
    constructor
    · intro q hq
      rw [List.getElem?_set_ne hk] at hq
      rw [htyped, hsaid]
      exact h.voiced q hq
    · intro hle
      rw [List.length_set] at hle
      rw [htyped, hsaid]
      exact h.blank hle

private theorem Following.server {i : Input} {parties : List Party} {t : Server}
    (h : Following tr n k) (htaken : n.taken i = some parties) :
    Following (tr ++ [(n, .server i)]) ⟨t, parties.mapIdx (n.given cfg i)⟩ k := by
  have htyped : typed k (tr ++ [(n, .server i)]) = typed k tr := by
    rw [typed_concat, typedIn, Option.toList_none, List.append_nil]
  have hsaid : said k (tr ++ [(n, .server i)]) = said k tr := by
    rw [said_concat, saidIn, Option.toList_none, List.append_nil]
  constructor
  · intro p hp
    rw [List.getElem?_mapIdx] at hp
    obtain ⟨q, hq, rfl⟩ := Option.map_eq_some_iff.mp hp
    obtain ⟨p₀, hp₀, hrunning⟩ := taken_running htaken hq
    obtain ⟨hvoiced, hends⟩ := h.voiced p₀ hp₀
    rw [htyped, hsaid]
    refine ⟨hvoiced, fun line hline hend => ?_⟩
    rw [← hends line hline hend, hrunning]
    rfl
  · intro hle
    rw [List.length_mapIdx, (taken_cases htaken).1] at hle
    rw [htyped, hsaid]
    exact h.blank hle

theorem run_following (h : NetRun cfg tr n) (k : ℕ) : Following tr n k := by
  refine Path.invariant (fun tr n => Following tr n k) ?_ ?_ h
  · constructor
    · intro p hp
      cases hp
    · exact fun _ => ⟨rfl, rfl⟩
  · intro tr n e m _ ih hnext
    cases net_cases hnext with
    | start process argv argument => exact ih.start process argv argument
    | party hp hacts => exact ih.acts hp hacts
    | server htaken _ => exact ih.server htaken

/-- In a network a subscriber has said behind its ID the requests among the meanings of the
lines typed at it, in their order. A line that means nothing is the last one, as an exit is,
and its subscriber has ended. -/
theorem lines_said (h : NetRun cfg tr n) (hp : n.parties[k]? = some p) :
    Voiced (typed k tr) (said k tr) ∧
      ∀ line ∈ typed k tr, EndsAt (lineMeaning line) → p.running = false :=
  (run_following h k).voiced p hp

end Steps

/-- The line subscribe t, without a flag. -/
def flaglessLine : InputLine where
  bytes := subscribeText ++ [32, 116, 10]
  nonempty := by simp
  fits := by decide
  newline_last := by simp [subscribeText, newline]

/-- A user subscribes, and then forgets the flag. -/
def flaglessEvents : List Network.Event :=
  [.start idle [46] [97], .console 0 (.line subscribeLine) (Block.fill formatLen 0),
    .console 0 (.line flaglessLine) (Block.fill formatLen 0)]

theorem lines_said_flagless :
    ∃ tr n p, NetRun usual tr n ∧ n.parties[0]? = some p ∧ p.running = false ∧
      (typed 0 tr).map lineMeaning = [some (.subscribe [116] 1), none] ∧
      Voiced (typed 0 tr) (said 0 tr) := by
  obtain ⟨tr, n, hrun, hn⟩ := exists_path (Net.next usual) (fun tr n => decide
    (n.parties.length = 1 ∧ (typed 0 tr).map lineMeaning = [some (.subscribe [116] 1), none]))
    (show (exec (Net.next usual) ⟨initial usual, []⟩ flaglessEvents).any _ = true by decide +kernel)
  obtain ⟨hparties, hmeant⟩ := of_decide_eq_true hn
  obtain ⟨p, hp⟩ : ∃ p, n.parties[0]? = some p := ⟨_, List.getElem?_eq_getElem (by omega)⟩
  obtain ⟨hvoiced, hends⟩ := lines_said hrun hp
  have hnothing : none ∈ (typed 0 tr).map lineMeaning := by
    rw [hmeant]
    exact List.mem_cons_of_mem _ (List.mem_singleton_self none)
  obtain ⟨line, hline, hmeaning⟩ := List.mem_map.mp hnothing
  exact ⟨tr, n, p, hrun, hp, hends line hline (Or.inr hmeaning), hmeant, hvoiced⟩

end TopicBroker.Commands
