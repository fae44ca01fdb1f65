import TopicBroker.CommandFraming
import TopicBroker.CommandLine

/-!
The command language against its parser. `intentOf` reads a line by its words, as the
commands are documented, and `shown` reads what `processInput` did. They agree on the
lines of the grammar, unless the newline ends up in the topic of an unsubscribe, and
on lines whose first word begins with no command word.
-/
namespace TopicBroker.Grammar

open ByteBlocks ByteOrder Message Client Words CommandLine CommandFraming

/-- What a line asks for, or what was done for it. -/
inductive Intent
  | subscribe (topic : Bytes) (sf : CInt)
  | unsubscribe (topic : Bytes)
  | exit
  | other
deriving DecidableEq

/-- The line without its newline. -/
def content (line : InputLine) : Bytes :=
  if line.bytes.getLast? = some newline then line.bytes.dropLast else line.bytes

def lineWords (line : InputLine) : List Bytes := words (among [space]) (content line)

/-- A word that can be a topic: it fits the field, and C can hold it. -/
def IsTopic (text : Bytes) : Prop := text.length ≤ topicLen ∧ ∀ b ∈ text, b ≠ 0

instance (text : Bytes) : Decidable (IsTopic text) := inferInstanceAs (Decidable (_ ∧ _))

/-- The word 0 or 1. -/
def flagOf : Bytes → Option CInt
  | [48] => some 0
  | [49] => some 1
  | _ => none

def intentOf (line : InputLine) : Intent :=
  match lineWords line with
  | [command] => if command = exitText then .exit else .other
  | [command, topic] =>
    if command = unsubscribeText ∧ IsTopic topic then .unsubscribe topic else .other
  | [command, topic, flag] =>
    if command = subscribeText ∧ IsTopic topic then
      match flagOf flag with
      | some sf => .subscribe topic sf
      | none => .other
    else .other
  | _ => .other

/-- The command that a message carries. -/
def carried (message : Bytes) : Option Intent :=
  if message.head? = some 115 ∧ message.length = 57 then
    some (.subscribe (cstr ((message.drop 1).take 51)) (intOfBytes ((message.drop 52).take 4)))
  else if message.head? = some 117 ∧ message.length = 51 then
    some (.unsubscribe (cstr (message.drop 1)))
  else none

/-- What was done, where it is defined. -/
def shown : Except Stop (Option Bytes) → Option Intent
  | .ok none => some .other
  | .ok (some message) => carried message
  | .error (.exit true) => some .exit
  | .error _ => none

section Messages

variable (sendBuffer : Frame) (topic : Token)

/-- A field holds the front of its text. -/
theorem cstr_fieldOf (n : ℕ) : cstr (fieldOf n topic.text) = topic.text.take n :=
  cstr_append_replicate (fun b hb => topic.noNul b (List.mem_of_mem_take hb)) _

theorem carried_subscribe (sf : CInt) :
    carried (Client.subscribe sendBuffer topic sf).bytes =
      some (.subscribe (topic.text.take 51) sf) := by
  have hbytes := subscribe_bytes sendBuffer topic sf
  have hfield : (topicField topic).bytes = fieldOf 51 topic.text := rfl
  have hlength : (fieldOf 51 topic.text).length = 51 := fieldOf_length _ _
  have hsize : (Client.subscribe sendBuffer topic sf).bytes.length = 57 := Block.size _
  have htopic : ((Client.subscribe sendBuffer topic sf).bytes.drop 1).take 51 =
      fieldOf 51 topic.text := by
    rw [hbytes, List.drop_succ_cons, List.drop_zero, List.append_assoc, hfield,
      List.take_left' hlength]
  have hsf : ((Client.subscribe sendBuffer topic sf).bytes.drop 52).take 4 = intBytes sf := by
    rw [hbytes, List.drop_succ_cons, List.append_assoc, hfield, List.drop_left' hlength,
      List.take_left' (intBytes_length sf)]
  have hhead : (Client.subscribe sendBuffer topic sf).bytes.head? = some 115 := by
    rw [hbytes, List.head?_cons]
  rw [carried, if_pos ⟨hhead, hsize⟩, htopic, hsf, intOfBytes_intBytes, cstr_fieldOf]

theorem carried_unsubscribe :
    carried (Client.unsubscribe sendBuffer topic).bytes =
      some (.unsubscribe (topic.text.take topicLen)) := by
  have hbytes := unsubscribe_bytes sendBuffer topic
  have hhead : (Client.unsubscribe sendBuffer topic).bytes.head? = some 117 := by
    rw [hbytes, List.head?_cons]
  have hsize : (Client.unsubscribe sendBuffer topic).bytes.length = 51 := Block.size _
  have hother : ¬ ((Client.unsubscribe sendBuffer topic).bytes.head? = some 115 ∧
      (Client.unsubscribe sendBuffer topic).bytes.length = 57) := by
    rintro ⟨hletter, _⟩
    rw [hhead] at hletter
    exact absurd hletter (by decide)
  rw [carried, if_neg hother, if_pos ⟨hhead, hsize⟩, hbytes, List.drop_succ_cons, List.drop_zero,
    cstr_fieldOf]

end Messages

section Parser

variable (sendBuffer : Frame) {line : InputLine} {w r : Bytes}

theorem subscribeText_noNul : ∀ b ∈ subscribeText, b ≠ 0 := by simp [subscribeText]

theorem unsubscribeText_noNul : ∀ b ∈ unsubscribeText, b ≠ 0 := by simp [unsubscribeText]

theorem exitText_noNul : ∀ b ∈ exitText, b ≠ 0 := by simp [exitText]

/-- The first word of a line, as the parser finds it. -/
abbrev firstWord (line : InputLine) : Option (Bytes × Bytes) :=
  nextWord (among [space, newline]) (cstr line.bytes)

theorem processInput_blank (h : firstWord line = none) :
    processInput sendBuffer (.line line) = .error .undefined := by
  have htoken := strtok_none (s := fgets line) h
  simp only [processInput]
  split
  · rfl
  · rename_i hsome
    rw [hsome] at htoken
    cases htoken

/-- The first word decides, and the rest is looked at only in two cases. -/
theorem processInput_word (h : firstWord line = some (w, r)) :
    ∃ saved : Token, saved.text = r ∧ processInput sendBuffer (.line line) =
      if subscribeText <+: w then
        match (strtok [space] saved).1, (strtok [space] (strtok [space] saved).2).1 with
        | some topic, some flag => do
          let sf ← atoi flag.text
          .ok (some (subscribe sendBuffer topic sf).bytes)
        | _, _ => .error .undefined
      else if unsubscribeText <+: w then
        match (strtok [space] saved).1 with
        | some topic => .ok (some (unsubscribe sendBuffer topic).bytes)
        | none => .error .undefined
      else if exitText <+: w then .error (.exit true)
      else .ok none := by
  obtain ⟨token, saved, htok, rfl, hsaved⟩ := strtok_some (s := fgets line) h
  refine ⟨saved, hsaved, ?_⟩
  have hsubscribe := strncmp_eq_zero_iff subscribeText_noNul token.text
  have hunsubscribe := strncmp_eq_zero_iff unsubscribeText_noNul token.text
  have hexit := strncmp_eq_zero_iff exitText_noNul token.text
  simp only [processInput, htok]
  simp only [← hsubscribe, ← hunsubscribe, ← hexit]
  rfl

/-- The first word begins with none of the command words. -/
def Unknown (line : InputLine) : Prop :=
  ∃ w r, firstWord line = some (w, r) ∧
    ¬ subscribeText <+: w ∧ ¬ unsubscribeText <+: w ∧ ¬ exitText <+: w

/-- The parser passes over a line in no other case. -/
theorem shown_other_iff :
    shown (processInput sendBuffer (.line line)) = some .other ↔ Unknown line := by
  cases hfirst : firstWord line with
  | none =>
    rw [processInput_blank sendBuffer hfirst]
    constructor
    · intro h
      cases h
    · rintro ⟨w, r, h, _⟩
      rw [hfirst] at h
      cases h
  | some split =>
    obtain ⟨w, r⟩ := split
    obtain ⟨saved, _, hrun⟩ := processInput_word sendBuffer hfirst
    have hunknown : Unknown line ↔
        ¬ subscribeText <+: w ∧ ¬ unsubscribeText <+: w ∧ ¬ exitText <+: w := by
      constructor
      · rintro ⟨w', r', h, hnone⟩
        rw [hfirst] at h
        cases h
        exact hnone
      · exact fun hnone => ⟨w, r, hfirst, hnone⟩
    rw [hrun, hunknown]
    by_cases hs : subscribeText <+: w
    · rw [if_pos hs]
      refine iff_of_false ?_ (fun h => h.1 hs)
      cases (strtok [space] saved).1 with
      | none => exact fun h => by cases h
      | some topic =>
        cases (strtok [space] (strtok [space] saved).2).1 with
        | none => exact fun h => by cases h
        | some flag =>
          simp only
          cases atoi flag.text with
          | error e =>
            intro h
            cases e with
            | exit success => cases success <;> cases h
            | _ => cases h
          | ok sf =>
            change carried (Client.subscribe sendBuffer topic sf).bytes ≠ _
            rw [carried_subscribe]
            exact fun h => by cases h
    · rw [if_neg hs]
      by_cases hu : unsubscribeText <+: w
      · rw [if_pos hu]
        refine iff_of_false ?_ (fun h => h.2.1 hu)
        cases (strtok [space] saved).1 with
        | none => exact fun h => by cases h
        | some topic =>
          change carried (Client.unsubscribe sendBuffer topic).bytes ≠ _
          rw [carried_unsubscribe]
          exact fun h => by cases h
      · rw [if_neg hu]
        by_cases he : exitText <+: w
        · rw [if_pos he]
          exact iff_of_false (fun h => by cases h) (fun h => h.2.2 he)
        · rw [if_neg he]
          exact iff_of_true rfl ⟨hs, hu, he⟩

end Parser

section Lines

variable {xs nl w : Bytes} {ws : List Bytes}

theorem content_eq (line : InputLine) :
    ∃ nl, line.bytes = content line ++ nl ∧ (nl = [] ∨ nl = [newline]) ∧
      newline ∉ content line := by
  unfold content
  by_cases hlast : line.bytes.getLast? = some newline
  · rw [if_pos hlast]
    exact ⟨[newline], (List.dropLast_append_getLast? newline hlast).symm, Or.inr rfl,
      fun h => line.newline_last newline h rfl⟩
  · rw [if_neg hlast]
    refine ⟨[], (List.append_nil _).symm, Or.inl rfl, ?_⟩
    intro hmem
    rw [← List.dropLast_append_getLast line.nonempty] at hmem
    rcases List.mem_append.mp hmem with hfront | hend
    · exact line.newline_last newline hfront rfl
    · rw [List.getLast?_eq_some_getLast line.nonempty, List.mem_singleton.mp hend] at hlast
      exact hlast rfl

/-- The first word of a line ends at a space or with the line. -/
theorem first_step (h : words (among [space]) xs = w :: ws) (hxs : newline ∉ xs)
    (hnl : nl = [] ∨ nl = [newline]) :
    (∃ gap ys, xs = gap ++ w ++ space :: ys ∧ words (among [space]) ys = ws ∧
      nextWord (among [space, newline]) (xs ++ nl) = some (w, ys ++ nl)) ∨
    (ws = [] ∧ nextWord (among [space, newline]) (xs ++ nl) = some (w, [])) := by
  obtain ⟨gap, rest, rfl, hsplit, hrest⟩ := words_eq_cons h
  have hwide : Split (among [space, newline]) gap w (rest ++ nl) := {
    gap := fun b hb => by
      have hspace : b = space := by simpa [among] using hsplit.gap b hb
      rw [hspace]
      rfl
    nonempty := hsplit.nonempty
    word := fun b hb => by
      have hspace : b ≠ space := by simpa [among] using hsplit.word b hb
      have hnewline : b ≠ newline := fun he => hxs (by
        rw [← he]
        exact List.mem_append_left rest (List.mem_append_right gap hb))
      simp [among, hspace, hnewline]
    rest := fun b hb => by
      cases rest with
      | cons c tail =>
        have hc : among [space] b = true := hsplit.rest b hb
        have hspace : b = space := by simpa [among] using hc
        rw [hspace]
        rfl
      | nil =>
        rcases hnl with rfl | rfl
        · cases hb
        · cases hb
          rfl
  }
  have hnext := hwide.nextWord_eq
  rw [← List.append_assoc] at hnext
  cases rest with
  | nil =>
    refine Or.inr ⟨hrest.symm, ?_⟩
    rcases hnl with rfl | rfl
    · exact hnext
    · exact hnext
  | cons c tail =>
    have hspace : c = space := by simpa [among] using hsplit.rest c rfl
    subst hspace
    exact Or.inl ⟨gap, tail, rfl, hrest, hnext⟩

/-- A later word ends at a space, or it takes the newline with it. -/
theorem later_step (h : words (among [space]) xs = w :: ws) (hnl : nl = [] ∨ nl = [newline]) :
    (∃ gap ys, xs = gap ++ w ++ space :: ys ∧ words (among [space]) ys = ws ∧
      nextWord (among [space]) (xs ++ nl) = some (w, ys ++ nl)) ∨
    (ws = [] ∧ ∃ gap, xs = gap ++ w ∧
      nextWord (among [space]) (xs ++ nl) = some (w ++ nl, [])) := by
  obtain ⟨gap, rest, rfl, hsplit, hrest⟩ := words_eq_cons h
  cases rest with
  | cons c tail =>
    have hspace : c = space := by simpa [among] using hsplit.rest c rfl
    subst hspace
    have hlonger : Split (among [space]) gap w (space :: tail ++ nl) :=
      ⟨hsplit.gap, hsplit.nonempty, hsplit.word, hsplit.rest⟩
    have hnext := hlonger.nextWord_eq
    rw [← List.append_assoc] at hnext
    exact Or.inl ⟨gap, tail, rfl, hrest, hnext⟩
  | nil =>
    have hlonger : Split (among [space]) gap (w ++ nl) [] := {
      gap := hsplit.gap
      nonempty := fun hnil => hsplit.nonempty (List.append_eq_nil_iff.mp hnil).1
      word := fun b hb => by
        rcases List.mem_append.mp hb with hb | hb
        · exact hsplit.word b hb
        · rcases hnl with rfl | rfl
          · cases hb
          · rw [List.mem_singleton.mp hb]
            rfl
      rest := fun b hb => by cases hb
    }
    have hnext := hlonger.nextWord_eq
    rw [List.append_nil, ← List.append_assoc] at hnext
    refine Or.inr ⟨hrest.symm, gap, List.append_nil _, ?_⟩
    rw [List.append_nil]
    exact hnext

end Lines

section Commands

variable (sendBuffer : Frame) {line : InputLine} {topic : Bytes} {sf : CInt}

theorem flagOf_eq_some {flag : Bytes} (h : flagOf flag = some sf) :
    flag = [48] ∧ sf = 0 ∨ flag = [49] ∧ sf = 1 := by
  unfold flagOf at h
  split at h
  · exact Or.inl ⟨rfl, (Option.some.inj h).symm⟩
  · exact Or.inr ⟨rfl, (Option.some.inj h).symm⟩
  · cases h

/-- A newline behind the flag does not change its value. -/
theorem atoi_flag {flag nl : Bytes} (h : flagOf flag = some sf) (hnl : nl = [] ∨ nl = [newline]) :
    atoi (flag ++ nl) = .ok sf := by
  rcases flagOf_eq_some h with ⟨rfl, rfl⟩ | ⟨rfl, rfl⟩ <;> rcases hnl with rfl | rfl <;> rfl

theorem lineWords_of_subscribe (h : intentOf line = .subscribe topic sf) :
    ∃ flag, lineWords line = [subscribeText, topic, flag] ∧ IsTopic topic ∧
      flagOf flag = some sf := by
  unfold intentOf at h
  split at h
  · split_ifs at h
  · split_ifs at h
  · rename_i command topic' flag hwords
    split_ifs at h with hcommand
    split at h
    · rename_i sf' hflag
      cases h
      exact ⟨flag, by rw [hwords, hcommand.1], hcommand.2, hflag⟩
    · cases h
  · cases h

theorem lineWords_of_unsubscribe (h : intentOf line = .unsubscribe topic) :
    lineWords line = [unsubscribeText, topic] ∧ IsTopic topic := by
  unfold intentOf at h
  split at h
  · split_ifs at h
  · rename_i command topic' hwords
    split_ifs at h with hcommand
    cases h
    exact ⟨by rw [hwords, hcommand.1], hcommand.2⟩
  · split_ifs at h
    split at h <;> cases h
  · cases h

theorem lineWords_of_exit (h : intentOf line = .exit) : lineWords line = [exitText] := by
  unfold intentOf at h
  split at h
  · rename_i command hwords
    split_ifs at h with hcommand
    rw [hwords, hcommand]
  · split_ifs at h
  · split_ifs at h
    split at h <;> cases h
  · cases h

/-- A line whose words C can hold is read to its end. -/
theorem cstr_line (h : ∀ w ∈ lineWords line, ∀ b ∈ w, b ≠ 0) : cstr line.bytes = line.bytes := by
  obtain ⟨nl, hbytes, hnl, _⟩ := content_eq line
  apply cstr_of_ne_zero
  intro b hb
  rw [hbytes] at hb
  rcases List.mem_append.mp hb with hcontent | hend
  · rcases mem_words (among [space]) hcontent with hsep | ⟨w, hw, hbw⟩
    · have hspace : b = space := by simpa [among] using hsep
      rw [hspace]
      decide
    · exact h w hw b hbw
  · rcases hnl with rfl | rfl
    · cases hend
    · rw [List.mem_singleton.mp hend]
      decide

theorem shown_exit (h : intentOf line = .exit) :
    shown (processInput sendBuffer (.line line)) = some .exit := by
  have hwords := lineWords_of_exit h
  obtain ⟨nl, hbytes, hnl, hcontent⟩ := content_eq line
  have hcstr : cstr line.bytes = line.bytes := by
    apply cstr_line
    rw [hwords]
    intro w hw
    rw [List.mem_singleton.mp hw]
    exact exitText_noNul
  obtain ⟨r, hfirst⟩ : ∃ r, firstWord line = some (exitText, r) := by
    rw [firstWord, hcstr, hbytes]
    rcases first_step hwords hcontent hnl with ⟨_, ys, _, _, hnext⟩ | ⟨_, hnext⟩
    · exact ⟨_, hnext⟩
    · exact ⟨_, hnext⟩
  obtain ⟨saved, _, hrun⟩ := processInput_word sendBuffer hfirst
  rw [hrun, if_neg (by decide), if_neg (by decide), if_pos (List.prefix_refl _)]
  rfl

theorem shown_subscribe (h : intentOf line = .subscribe topic sf) :
    shown (processInput sendBuffer (.line line)) = some (.subscribe topic sf) := by
  obtain ⟨flag, hwords, htopic, hflag⟩ := lineWords_of_subscribe h
  obtain ⟨nl, hbytes, hnl, hcontent⟩ := content_eq line
  have hcstr : cstr line.bytes = line.bytes := by
    apply cstr_line
    rw [hwords]
    intro w hw
    simp only [List.mem_cons, List.not_mem_nil, or_false] at hw
    rcases hw with rfl | rfl | rfl
    · exact subscribeText_noNul
    · exact htopic.2
    · rcases flagOf_eq_some hflag with ⟨rfl, _⟩ | ⟨rfl, _⟩ <;> simp
  -- two more words follow, so the first two end at spaces
  rcases first_step hwords hcontent hnl with ⟨_, ys, _, hys, hfirst⟩ | ⟨hnil, _⟩
  · rcases later_step hys hnl with ⟨_, zs, _, hzs, hsecond⟩ | ⟨hnil, _⟩
    · obtain ⟨saved, hsaved, hrun⟩ := processInput_word sendBuffer
        (show firstWord line = some (subscribeText, ys ++ nl) by
          rw [firstWord, hcstr, hbytes]
          exact hfirst)
      rw [← hsaved] at hsecond
      obtain ⟨token, saved', htoken, htext, hsaved'⟩ := strtok_some hsecond
      obtain ⟨last, rest, hthird, hatoi⟩ : ∃ last rest,
          nextWord (among [space]) (zs ++ nl) = some (last, rest) ∧ atoi last = .ok sf := by
        rcases later_step hzs hnl with ⟨_, _, _, _, hnext⟩ | ⟨_, _, _, hnext⟩
        · refine ⟨_, _, hnext, ?_⟩
          have hvalue := atoi_flag hflag (Or.inl rfl)
          rwa [List.append_nil] at hvalue
        · exact ⟨_, _, hnext, atoi_flag hflag hnl⟩
      rw [← hsaved'] at hthird
      obtain ⟨flagToken, _, hflagToken, hflagText, _⟩ := strtok_some hthird
      rw [hrun, if_pos (List.prefix_refl _), htoken]
      simp only [hflagToken, hflagText, hatoi]
      change carried (Client.subscribe sendBuffer token sf).bytes = _
      have hfits := htopic.1
      rw [carried_subscribe, htext, List.take_of_length_le (by
        simp only [topicLen] at hfits
        omega)]
    · cases hnil
  · cases hnil

/-- A word and blanks do not end in the same way. -/
private theorem word_ne_blanks {pre word front blanks : Bytes} (hblank : blanks ≠ [])
    (hblanks : ∀ b ∈ blanks, b = space) (hne : word ≠ []) (hword : ∀ b ∈ word, b ≠ space) :
    pre ++ word ≠ front ++ blanks := by
  intro heq
  have hlast := congrArg List.getLast? heq
  rw [List.getLast?_append_of_ne_nil _ hne, List.getLast?_append_of_ne_nil _ hblank,
    List.getLast?_eq_some_getLast hne, List.getLast?_eq_some_getLast hblank,
    Option.some.injEq] at hlast
  apply hword _ (List.getLast_mem hne)
  rw [hlast]
  exact hblanks _ (List.getLast_mem hblank)

/-- The topic of an unsubscribe takes a newline that directly follows it. -/
theorem unsubscribe_token (h : lineWords line = [unsubscribeText, topic])
    (htopic : ∀ b ∈ topic, b ≠ 0) :
    ∃ token : Token,
      processInput sendBuffer (.line line) = .ok (some (unsubscribe sendBuffer token).bytes) ∧
      ((token.text = topic ∧ ¬ topic ++ [newline] <:+ line.bytes) ∨
        (token.text = topic ++ [newline] ∧ topic ++ [newline] <:+ line.bytes)) := by
  obtain ⟨nl, hbytes, hnl, hcontent⟩ := content_eq line
  have hcstr : cstr line.bytes = line.bytes := by
    apply cstr_line
    rw [h]
    intro w hw
    simp only [List.mem_cons, List.not_mem_nil, or_false] at hw
    rcases hw with rfl | rfl
    · exact unsubscribeText_noNul
    · exact htopic
  rcases first_step h hcontent hnl with ⟨gap, ys, hxs, hys, hfirst⟩ | ⟨hnil, _⟩
  · obtain ⟨saved, hsaved, hrun⟩ := processInput_word sendBuffer
      (show firstWord line = some (unsubscribeText, ys ++ nl) by
        rw [firstWord, hcstr, hbytes]
        exact hfirst)
    rw [if_neg (by decide), if_pos (List.prefix_refl _)] at hrun
    rcases later_step hys hnl with ⟨gap', zs, rfl, hzs, hsecond⟩ | ⟨_, gap', rfl, hsecond⟩
    · rw [← hsaved] at hsecond
      obtain ⟨token, _, htoken, htext, _⟩ := strtok_some hsecond
      refine ⟨token, by rw [hrun, htoken], Or.inl ⟨htext, ?_⟩⟩
      rintro ⟨pre, hpre⟩
      rw [hbytes] at hpre
      rcases hnl with rfl | rfl
      · apply hcontent
        rw [List.append_nil] at hpre
        rw [← hpre, ← List.append_assoc]
        exact List.mem_append_right _ (List.mem_singleton_self _)
      · rw [← List.append_assoc, hxs, ← List.cons_append, ← List.append_assoc,
          List.append_cancel_right_eq] at hpre
        obtain ⟨_, _, _, hsplit, _⟩ := words_eq_cons hys
        have hblanks : ∀ b ∈ space :: zs, b = space := by
          intro b hb
          rcases List.mem_cons.mp hb with rfl | hb
          · rfl
          · simpa [among] using words_eq_nil hzs b hb
        refine word_ne_blanks (List.cons_ne_nil _ _) hblanks hsplit.nonempty ?_ hpre
        intro b hb
        simpa [among] using hsplit.word b hb
    · rw [← hsaved] at hsecond
      obtain ⟨token, _, htoken, htext, _⟩ := strtok_some hsecond
      refine ⟨token, by rw [hrun, htoken], ?_⟩
      rcases hnl with rfl | rfl
      · rw [List.append_nil] at htext hbytes
        refine Or.inl ⟨htext, fun hsuffix => hcontent ?_⟩
        rw [← hbytes]
        exact hsuffix.subset (List.mem_append_right topic (List.mem_singleton_self _))
      · refine Or.inr ⟨htext, gap ++ unsubscribeText ++ space :: gap', ?_⟩
        rw [hbytes, hxs]
        simp only [List.append_assoc, List.cons_append]
  · cases hnil

/-- A topic of full length leaves no room for the newline. -/
theorem take_newline (h : topic.length ≤ topicLen) :
    (topic ++ [newline]).take topicLen = topic ↔ topic.length = topicLen := by
  constructor
  · intro heq
    by_contra hne
    have hlt := Nat.lt_of_le_of_ne h hne
    have hlength := congrArg List.length heq
    simp only [List.length_take, List.length_append, List.length_singleton] at hlength
    omega
  · exact fun hfull => List.take_left' hfull

theorem shown_unsubscribe (h : intentOf line = .unsubscribe topic) :
    shown (processInput sendBuffer (.line line)) = some (.unsubscribe topic) ↔
      topic.length = topicLen ∨ ¬ topic ++ [newline] <:+ line.bytes := by
  obtain ⟨hwords, hfits, hnul⟩ := lineWords_of_unsubscribe h
  obtain ⟨token, hrun, htext⟩ := unsubscribe_token sendBuffer hwords hnul
  have hshown : shown (processInput sendBuffer (.line line)) =
      some (.unsubscribe (token.text.take topicLen)) := by
    rw [hrun]
    exact carried_unsubscribe sendBuffer token
  rw [hshown, Option.some.injEq, Intent.unsubscribe.injEq]
  rcases htext with ⟨htext, hsuffix⟩ | ⟨htext, hsuffix⟩
  · rw [htext, List.take_of_length_le hfits]
    exact iff_of_true rfl (Or.inr hsuffix)
  · rw [htext, take_newline hfits]
    exact ⟨Or.inl, fun h => h.resolve_right (not_not.mpr hsuffix)⟩

end Commands

/-- The lines that the parser treats as the grammar asks: its commands, but of the
unsubscribes only those whose topic fills its field or is not directly followed by the
newline; and of the other lines those whose first word begins with no command word. -/
def Accepted (line : InputLine) : Prop :=
  match intentOf line with
  | .subscribe _ _ => True
  | .unsubscribe topic => topic.length = topicLen ∨ ¬ topic ++ [newline] <:+ line.bytes
  | .exit => True
  | .other => Unknown line

/-- What is done for a line is what it asks for, on exactly the accepted lines. -/
theorem parser_exact (sendBuffer : Frame) (line : InputLine) :
    shown (processInput sendBuffer (.line line)) = some (intentOf line) ↔ Accepted line := by
  unfold Accepted
  cases h : intentOf line with
  | subscribe topic sf => exact iff_of_true (shown_subscribe sendBuffer h) trivial
  | unsubscribe topic => exact shown_unsubscribe sendBuffer h
  | exit => exact iff_of_true (shown_exit sendBuffer h) trivial
  | other => exact shown_other_iff sendBuffer

/-- The line of an unsubscribe from a topic of one letter. -/
def unsubscribeLine : InputLine where
  bytes := unsubscribeText ++ [space, 116, newline]
  nonempty := List.append_ne_nil_of_right_ne_nil _ (List.cons_ne_nil _ _)
  fits := by decide
  newline_last := by simp [unsubscribeText, newline, space]

/-- The message carries the letter and the newline. -/
theorem newline_in_topic :
    intentOf unsubscribeLine = .unsubscribe [116] ∧
      shown (processInput (Block.fill formatLen 0) (.line unsubscribeLine)) =
        some (.unsubscribe [116, newline]) := by
  decide +kernel

end TopicBroker.Grammar
