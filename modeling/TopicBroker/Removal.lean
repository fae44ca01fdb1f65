import TopicBroker.Requests

/-!
Removal of a subscription. `unsubscribe` leaves every other pair of a record in place
exactly when the topic occurs nowhere but at the end of the record's table: a deletion
anywhere else does not come to an end.
-/
namespace TopicBroker.Removal

open ByteBlocks Message Buffer Registry Requests

/-- The pairs of a record that an unsubscribe is to leave. -/
def remaining (topic : Bytes) (c : Client) : List (Topic × CInt) :=
  (c.topics.zip c.sfs).filter fun entry => cstr entry.1.bytes ≠ cstr topic

/-- A record after an unsubscribe as it is asked for. -/
def unsubscribed (topic : Bytes) (sock : ℤ) (c : Client) : Client :=
  if c.sock = sock then
    { c with topics := (remaining topic c).map Prod.fst, sfs := (remaining topic c).map Prod.snd }
  else c

section Loop

variable {topic : Bytes}

theorem deleteAt_last {α : Type} {xs : List α} {pos : ℕ} (h : pos + 1 = xs.length) :
    deleteAt xs pos = .ok xs.dropLast := by
  have hle : ¬ xs.length < pos := by omega
  rw [deleteAt, if_neg hle, if_pos h]

/-- The loop comes to an end when it finds the topic at the last position or not at all. -/
theorem unsubscribeTopics_ends_iff (fuel : ℕ) : ∀ {j : ℕ} {topics : List Topic} {sfs : List CInt},
    topics.length = sfs.length → topics.length ≤ j + fuel →
      ((∃ out, unsubscribeTopics topic fuel j topics sfs = .ok out) ↔
        ∀ t ∈ topics.dropLast.drop j, cstr t.bytes ≠ cstr topic) := by
  induction fuel with
  | zero =>
    intro j topics sfs _ hfuel
    have hnil : topics.dropLast.drop j = [] :=
      List.drop_eq_nil_of_le (by rw [List.length_dropLast]; omega)
    rw [hnil]
    exact iff_of_true ⟨_, rfl⟩ fun t ht => absurd ht List.not_mem_nil
  | succ fuel ih =>
    intro j topics sfs hlength hfuel
    rw [unsubscribeTopics]
    by_cases hj : j < topics.length
    · rw [if_pos hj, readAt_of_lt hj]
      change (∃ out, (if strcmp topics[j].bytes topic = 0 then _ else _) = Except.ok out) ↔ _
      by_cases hlast : j + 1 = topics.length
      · have hnil : topics.dropLast.drop j = [] :=
          List.drop_eq_nil_of_le (by rw [List.length_dropLast]; omega)
        have hnil' : topics.dropLast.drop (j + 1) = [] :=
          List.drop_eq_nil_of_le (by rw [List.length_dropLast]; omega)
        rw [hnil]
        refine iff_of_true ?_ fun t ht => absurd ht List.not_mem_nil
        by_cases hmatch : strcmp topics[j].bytes topic = 0
        · rw [if_pos hmatch, deleteAt_last hlast, deleteAt_last (hlast.trans hlength)]
          have hshorter : topics.dropLast.length = sfs.dropLast.length := by
            rw [List.length_dropLast, List.length_dropLast, hlength]
          refine (ih hshorter (by rw [List.length_dropLast]; omega)).mpr ?_
          intro t ht
          rw [List.drop_eq_nil_of_le (by simp only [List.length_dropLast]; omega)] at ht
          exact absurd ht List.not_mem_nil
        · rw [if_neg hmatch]
          refine (ih hlength (by omega)).mpr ?_
          rw [hnil']
          exact fun t ht => absurd ht List.not_mem_nil
      · have hfront : j < topics.dropLast.length := by
          rw [List.length_dropLast]
          omega
        rw [List.drop_eq_getElem_cons hfront, List.forall_mem_cons, List.getElem_dropLast]
        by_cases hmatch : cstr topics[j].bytes = cstr topic
        · rw [if_pos ((strcmp_eq_zero_iff _ _).mpr hmatch)]
          refine iff_of_false ?_ (fun h => h.1 hmatch)
          rintro ⟨out, h⟩
          obtain ⟨_, hdelete, _⟩ := bind_eq_ok.mp h
          exact hlast (deleteAt_eq_ok hdelete).1
        · rw [if_neg (fun he => hmatch ((strcmp_eq_zero_iff _ _).mp he)), ih hlength (by omega)]
          exact ⟨fun h => ⟨hmatch, h⟩, And.right⟩
    · rw [if_neg hj, List.drop_eq_nil_of_le (by rw [List.length_dropLast]; omega)]
      exact iff_of_true ⟨_, rfl⟩ fun t ht => absurd ht List.not_mem_nil

end Loop

section Tables

variable {topic : Bytes} {sock : ℤ} {c : Client}

/-- Nothing is removed from a table without the topic. -/
theorem remaining_absent (hnone : ∀ t ∈ c.topics, cstr t.bytes ≠ cstr topic) :
    remaining topic c = c.topics.zip c.sfs := by
  rw [remaining, List.filter_eq_self]
  intro entry hentry
  exact decide_eq_true (hnone _ (List.of_mem_zip hentry).1)

/-- What is left of a table that has the topic at its end only. -/
theorem remaining_last {t : Topic} (hlength : c.topics.length = c.sfs.length)
    (hlast : c.topics.getLast? = some t) (hmatch : cstr t.bytes = cstr topic)
    (hfront : ∀ t ∈ c.topics.dropLast, cstr t.bytes ≠ cstr topic) :
    remaining topic c = c.topics.dropLast.zip c.sfs.dropLast := by
  have htopics := List.dropLast_append_getLast? t hlast
  obtain ⟨sf, hsf⟩ : ∃ sf, c.sfs.getLast? = some sf := by
    have hne : c.sfs ≠ [] := by
      intro hnil
      rw [hnil, List.length_nil] at hlength
      rw [List.eq_nil_of_length_eq_zero hlength] at hlast
      cases hlast
    exact ⟨_, List.getLast?_eq_some_getLast hne⟩
  have hsfs := List.dropLast_append_getLast? sf hsf
  have hshorter : c.topics.dropLast.length = c.sfs.dropLast.length := by
    rw [List.length_dropLast, List.length_dropLast, hlength]
  have hzip : c.topics.zip c.sfs = c.topics.dropLast.zip c.sfs.dropLast ++ [(t, sf)] := by
    calc
      c.topics.zip c.sfs = (c.topics.dropLast ++ [t]).zip (c.sfs.dropLast ++ [sf]) := by
        rw [htopics, hsfs]
      _ = c.topics.dropLast.zip c.sfs.dropLast ++ [(t, sf)] := List.zip_append hshorter
  have hkept : ∀ entry ∈ c.topics.dropLast.zip c.sfs.dropLast,
      decide (cstr entry.1.bytes ≠ cstr topic) = true := fun entry hentry =>
    decide_eq_true (hfront _ (List.of_mem_zip hentry).1)
  rw [remaining, hzip, List.filter_append, List.filter_eq_self.mpr hkept,
    List.filter_cons_of_neg (by simpa using hmatch), List.filter_nil, List.append_nil]

/-- One record: its loop ends with the pairs asked for when the topic is nowhere else. -/
theorem unsubscribeTopics_iff (hlength : c.topics.length = c.sfs.length) :
    unsubscribeTopics topic c.topics.length 0 c.topics c.sfs =
        .ok ((remaining topic c).map Prod.fst, (remaining topic c).map Prod.snd) ↔
      ∀ t ∈ c.topics.dropLast, cstr t.bytes ≠ cstr topic := by
  have hends : (∃ out, unsubscribeTopics topic c.topics.length 0 c.topics c.sfs = .ok out) ↔
      ∀ t ∈ c.topics.dropLast.drop 0, cstr t.bytes ≠ cstr topic :=
    unsubscribeTopics_ends_iff _ hlength (by omega)
  rw [List.drop_zero] at hends
  constructor
  · exact fun h => hends.mp ⟨_, h⟩
  · intro hfront
    obtain ⟨⟨topics', sfs'⟩, hrun⟩ := hends.mpr hfront
    rw [hrun]
    rcases unsubscribeTopics_ok _ (by omega) hrun with ⟨rfl, rfl, hnone⟩ | hremoved
    · rw [List.drop_zero] at hnone
      rw [remaining_absent hnone, List.map_fst_zip (le_of_eq hlength),
        List.map_snd_zip (ge_of_eq hlength)]
    · obtain ⟨_, rfl, rfl, t, hlast, hmatch⟩ := hremoved
      have hshorter : c.topics.dropLast.length = c.sfs.dropLast.length := by
        rw [List.length_dropLast, List.length_dropLast, hlength]
      rw [remaining_last hlength hlast hmatch hfront, List.map_fst_zip (le_of_eq hshorter),
        List.map_snd_zip (ge_of_eq hshorter)]

end Tables

/-- An unsubscribe request that is handled to completion removes the topic. -/
theorem unsubscribe_map {topic : Bytes} {sock : ℤ} {clients clients' : List Client}
    (hlength : ∀ c ∈ clients, c.topics.length = c.sfs.length)
    (h : unsubscribe topic sock clients = .ok clients') :
    clients' = clients.map (unsubscribed topic sock) := by
  have hall := eachClient_ok h
  clear h
  induction hall with
  | nil => rfl
  | @cons c c' rest rest' hc _ ih =>
    rw [List.map_cons, ih fun d hd => hlength d (List.mem_cons_of_mem c hd)]
    congr 1
    unfold unsubscribed
    by_cases hsock : c.sock = sock
    · rw [if_pos hsock] at hc ⊢
      obtain ⟨out, hout, hc⟩ := bind_eq_ok.mp hc
      have heq := hlength c (List.mem_cons_self ..)
      have hends := (unsubscribeTopics_ends_iff _ heq (by omega)).mp ⟨out, hout⟩
      rw [List.drop_zero] at hends
      rw [(unsubscribeTopics_iff heq).mpr hends, Except.ok.injEq] at hout
      subst hout
      exact (Except.ok.inj hc).symm
    · rw [if_neg hsock] at hc ⊢
      exact (Except.ok.inj hc).symm

/-- An unsubscribe leaves what it is asked to leave, of every record of the socket, exactly
when no such record has the topic before the last position of its table. -/
theorem unsubscribe_removes_iff {clients : List Client}
    (h : ∀ c ∈ clients, c.topics.length = c.sfs.length) (topic : Bytes) (sock : ℤ) :
    unsubscribe topic sock clients = .ok (clients.map (unsubscribed topic sock)) ↔
      ∀ c ∈ clients, c.sock = sock → ∀ t ∈ c.topics.dropLast, cstr t.bytes ≠ cstr topic := by
  rw [unsubscribe, eachClient_eq_ok, List.forall₂_map_right_iff, List.forall₂_same]
  refine forall₂_congr fun c hc => ?_
  by_cases hsock : c.sock = sock
  · rw [if_pos hsock, ← unsubscribeTopics_iff (h c hc), unsubscribed, if_pos hsock]
    constructor
    · intro hrun _
      obtain ⟨⟨topics', sfs'⟩, hloop, hrun⟩ := bind_eq_ok.mp hrun
      injection hrun with hrecord
      have htopics : topics' = _ := congrArg Client.topics hrecord
      have hsfs : sfs' = _ := congrArg Client.sfs hrecord
      rw [hloop, htopics, hsfs]
    · intro hloop
      rw [hloop hsock]
      rfl
  · rw [if_neg hsock, unsubscribed, if_neg hsock]
    exact iff_of_true rfl fun he => absurd he hsock

/-- A record with two topics, the one named first at the front of its table. -/
def twoTopics (first last : UInt8) : Client where
  sock := 5
  ID := Block.fill idLen 97
  following := []
  topics := [⟨first :: List.replicate topicLen 0, by simp⟩, ⟨last :: List.replicate topicLen 0, by simp⟩]
  sfs := [1, 0]
  inWaiting := []

theorem unsubscribe_removes_iff_last :
    unsubscribe [117] 5 [twoTopics 116 117] = .ok [unsubscribed [117] 5 (twoTopics 116 117)] ∧
      (unsubscribed [117] 5 (twoTopics 116 117)).topics.length = 1 :=
  ⟨(unsubscribe_removes_iff (show ∀ c ∈ [twoTopics 116 117], c.topics.length = c.sfs.length by
    decide) [117] 5).mpr (by decide), by decide⟩

/-- The topic at the front of the table is not removed. -/
theorem front_not_removed :
    (∀ c ∈ [twoTopics 116 117], c.topics.length = c.sfs.length) ∧
      unsubscribe [116] 5 [twoTopics 116 117] = .error .undefined := by
  decide

end TopicBroker.Removal
