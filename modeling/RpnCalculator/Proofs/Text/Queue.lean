import Mathlib.Data.List.Forall2
import RpnCalculator.Proofs.Text.Calls

/-!
# A stack of sources as a queue of words

Sources are put on a stack, and words are read from the newest source that has one.  Seen from
outside there are no sources.  There is one queue of words, and the words of a new source are put in
front of it (`Feed.queue`).  This file proves that nothing else can be seen, whatever is done and in
whatever order (`stack_refines_queue`).

## Any source

A source is anything that can be asked for a word.  All that is assumed of one that is put on the
stack is what its calls answer: so many words, and then no word any more (`Delivers`).  Sources of
several kinds can stand on one stack, each asked in the way of its kind (`dispatch`), and a stack is
a source again (`Stacked.Undelivered.delivers`).

## Why the stack is not the queue

The number of sources does not say whether a word is left.  A source whose last word was read stays
where it is until a read comes back to it, and so does one that never had a word.  The relation
`Stacked.Undelivered` joins a stack to the words that its sources have yet to deliver, and a read
keeps it (`Undelivered.next`): what answers nothing has nothing to deliver and can be taken off, and
the first source that answers gives the first word of the queue.  With this and what holds of the
other two steps, a run is an induction on its steps (`Feed.run_stack`).

What becomes of the words is then a matter of the queue alone.  A word that is put in comes out, is
left, or is dropped by a clearing, and that once (`Feed.queue_perm`), and those that wait keep their
order (`Feed.queue_sublist`).
-/

namespace RpnCalculator

/-! ## What a source delivers -/

section

variable {σ : Type} {ask : σ → Option String × σ} {s : σ} {words : List String}

/-- To deliver these words, one a call, and after them no word any more. -/
def Delivers (ask : σ → Option String × σ) (s : σ) (words : List String) : Prop :=
  ∀ n, answers ask n s = deliveries words n

/-- The first call answers the first word, and the others are left. -/
theorem delivers_iff :
    Delivers ask s words ↔ (ask s).1 = words.head? ∧ Delivers ask (ask s).2 words.tail := by
  constructor
  · intro h
    have hsucc (n : Nat) :
        (ask s).1 = words.head? ∧ answers ask n (ask s).2 = deliveries words.tail n := by
      have hn := h (n + 1)
      rw [answers, deliveries_succ] at hn
      exact List.cons.inj hn
    exact ⟨(hsucc 0).1, fun n => (hsucc n).2⟩
  · rintro ⟨hanswer, hrest⟩ n
    cases n with
    | zero => simp [answers, deliveries]
    | succ n => rw [answers, deliveries_succ, hanswer, hrest n]

theorem TakesFirst.delivers {toCome : σ → List String} (h : TakesFirst ask toCome) (s : σ) :
    Delivers ask s (toCome s) :=
  fun n => answers_eq h n s

/-- A source that has no word to answer has none to deliver. -/
theorem Delivers.eq_nil (h : Delivers ask s words) (hnone : (ask s).1 = none) : words = [] := by
  rw [(delivers_iff.mp h).1] at hnone
  exact List.head?_eq_none_iff.mp hnone

/-- The words to deliver are known from the answers. -/
theorem rightUnique_delivers (ask : σ → Option String × σ) :
    Relator.RightUnique (Delivers ask) := by
  intro s words others h h'
  -- each word is known from the first call, and the next one from the source after it
  induction words generalizing s others with
  | nil =>
    have hnone : (ask s).1 = none := (delivers_iff.mp h).1
    exact (h'.eq_nil hnone).symm
  | cons w words ih =>
    obtain ⟨hanswer, hrest⟩ := delivers_iff.mp h
    obtain ⟨hanswer', hrest'⟩ := delivers_iff.mp h'
    rw [hanswer] at hanswer'
    obtain ⟨others, rfl⟩ := List.head?_eq_some_iff.mp hanswer'.symm
    exact congrArg (w :: ·) (ih hrest hrest')

end

/-! ## Sources of several kinds -/

section

variable {ι : Type} {σ : ι → Type} {ask : ∀ i, σ i → Option String × σ i}

/-- Ask a source in the way of its kind. -/
def dispatch (ask : ∀ i, σ i → Option String × σ i) :
    (Σ i, σ i) → Option String × (Σ i, σ i)
  | ⟨i, s⟩ => ((ask i s).1, ⟨i, (ask i s).2⟩)

theorem answers_dispatch (n : Nat) (i : ι) (s : σ i) :
    answers (dispatch ask) n ⟨i, s⟩ = answers (ask i) n s := by
  induction n generalizing s with
  | zero => rfl
  | succ n ih => exact congrArg ((ask i s).1 :: ·) (ih (ask i s).2)

theorem delivers_dispatch_iff {i : ι} {s : σ i} {words : List String} :
    Delivers (dispatch ask) ⟨i, s⟩ words ↔ Delivers (ask i) s words := by
  simp only [Delivers, answers_dispatch]

end

/-! ## Steps -/

/-- What is done to something that words are read from. -/
inductive FeedStep (σ : Type) where
  | push (s : σ)
  | next
  | clear

namespace FeedStep

variable {σ τ : Type}

/-- The same step with something else to be put on. -/
def map (f : σ → τ) : FeedStep σ → FeedStep τ
  | .push s => .push (f s)
  | .next => .next
  | .clear => .clear

/-- Whether a step puts on only what is wanted. -/
def keeps (wanted : σ → Bool) : FeedStep σ → Bool
  | .push s => wanted s
  | _ => true

/-- The words that a step puts into a queue. -/
def offered : FeedStep (List String) → List String
  | .push words => words
  | _ => []

theorem clear_notMem_map {f : σ → τ} {steps : List (FeedStep σ)} (h : .clear ∉ steps) :
    .clear ∉ steps.map (·.map f) := by
  intro hmem
  obtain ⟨step, hstep, hmap⟩ := List.mem_map.mp hmem
  cases step with
  | clear => exact h hstep
  | push s => cases hmap
  | next => cases hmap

end FeedStep

/-- Something that sources are put on and words are read from. -/
structure Feed (σ β : Type) where
  push : σ → β → β
  next : β → Option String × β
  empty : β

namespace Feed

variable {σ β : Type}

/-- Carry out steps one after the other: the answers of the reads, and what is left. -/
def run (feed : Feed σ β) : List (FeedStep σ) → β → List (Option String) × β
  | [], b => ([], b)
  | .push s :: steps, b => feed.run steps (feed.push s b)
  | .next :: steps, b =>
    ((feed.next b).1 :: (feed.run steps (feed.next b).2).1, (feed.run steps (feed.next b).2).2)
  | .clear :: steps, _ => feed.run steps feed.empty

/-- A queue of words.  New words go in front of those that wait. -/
def queue : Feed (List String) (List String) where
  push words q := words ++ q
  next q := (q.head?, q.tail)
  empty := []

/-- The words that wait when a queue is cleared. -/
def dropped : List (FeedStep (List String)) → List String → List String
  | [], _ => []
  | .push words :: steps, q => dropped steps (words ++ q)
  | .next :: steps, q => dropped steps q.tail
  | .clear :: steps, q => q ++ dropped steps []

/-- **A queue keeps its words.**  What comes out, is left or is dropped by a clearing is what waited
or was put in, each word as often. -/
theorem queue_perm (steps : List (FeedStep (List String))) (q : List String) :
    ((queue.run steps q).1.reduceOption ++ (queue.run steps q).2 ++ dropped steps q).Perm
      (steps.flatMap FeedStep.offered ++ q) := by
  induction steps generalizing q with
  | nil => exact .of_eq (List.append_nil q)
  | cons step steps ih =>
    cases step with
    | push words =>
      refine (ih (words ++ q)).trans ?_
      rw [← List.append_assoc]
      exact List.perm_append_comm.append_right q
    | clear =>
      -- on the right side what waits stands last, so it is moved behind what is dropped later
      have hmove : (q ++ dropped steps []).Perm (dropped steps [] ++ q) := List.perm_append_comm
      refine (hmove.append_left _).trans ?_
      rw [← List.append_assoc]
      have hkept := ih []
      rw [List.append_nil] at hkept
      exact hkept.append_right q
    | next =>
      cases q with
      | nil => exact ih []
      | cons w q => exact ((ih q).cons w).trans List.perm_middle.symm

/-- Without a clearing nothing is dropped. -/
theorem dropped_eq_nil {steps : List (FeedStep (List String))} (h : .clear ∉ steps)
    (q : List String) : dropped steps q = [] := by
  induction steps generalizing q with
  | nil => rfl
  | cons step steps ih =>
    rw [List.mem_cons, not_or] at h
    cases step with
    | push words => exact ih h.2 (words ++ q)
    | clear => exact absurd rfl h.1
    | next => exact ih h.2 q.tail

/-- **A queue keeps their order.**  The words that wait come out or are left as they stand. -/
theorem queue_sublist {steps : List (FeedStep (List String))} (h : .clear ∉ steps)
    (q : List String) :
    q.Sublist ((queue.run steps q).1.reduceOption ++ (queue.run steps q).2) := by
  induction steps generalizing q with
  | nil => exact List.Sublist.refl q
  | cons step steps ih =>
    rw [List.mem_cons, not_or] at h
    cases step with
    | push words => exact (List.sublist_append_right words q).trans (ih h.2 (words ++ q))
    | clear => exact absurd rfl h.1
    | next =>
      cases q with
      | nil => exact List.nil_sublist _
      | cons w q => exact (ih h.2 q).cons_cons w

end Feed

/-! ## Stacks -/

namespace Stacked

variable {σ : Type} {ask : σ → Option String × σ} {s : σ} {older ss : List σ}
  {q words : List String}

/-- What a look at the newest source comes to. -/
inductive Look (σ : Type) where
  /-- The call has its answer. -/
  | answered (answer : Option String) (ss : List σ)
  /-- The source had no word and was taken off. -/
  | again (older : List σ)

/-- Ask the newest source, and take it off if it has no word. -/
def look (ask : σ → Option String × σ) : List σ → Look σ
  | [] => .answered none []
  | s :: older =>
    match ask s with
    | (some w, s') => .answered (some w) (s' :: older)
    | (none, _) => .again older

/-- Look until there is an answer, at most `bound` times. -/
def lookUntil (ask : σ → Option String × σ) : Nat → List σ → Option (Option String × List σ)
  | 0, _ => none
  | bound + 1, ss =>
    match look ask ss with
    | .answered answer ss' => some (answer, ss')
    | .again older => lookUntil ask bound older

/-- Ask a stack for the next word. -/
def call (ask : σ → Option String × σ) : List σ → Option String × List σ
  | [] => (none, [])
  | s :: older =>
    match ask s with
    | (some w, s') => (some w, s' :: older)
    | (none, _) => call ask older

theorem call_of_some {w : String} (h : (ask s).1 = some w) (older : List σ) :
    call ask (s :: older) = (some w, (ask s).2 :: older) := by
  rcases hs : ask s with ⟨answer, s'⟩
  rw [hs] at h
  subst h
  rw [call, hs]

theorem call_of_none (h : (ask s).1 = none) (older : List σ) :
    call ask (s :: older) = call ask older := by
  rcases hs : ask s with ⟨answer, s'⟩
  rw [hs] at h
  subst h
  rw [call, hs]

/-- The loop ends.  A look without an answer takes a source off. -/
theorem lookUntil_eq {bound : Nat} (h : ss.length < bound) :
    lookUntil ask bound ss = some (call ask ss) := by
  induction ss generalizing bound with
  | nil =>
    obtain ⟨k, rfl⟩ := Nat.exists_eq_add_one.mpr h
    rfl
  | cons s older ih =>
    obtain ⟨k, rfl⟩ := Nat.exists_eq_add_one.mpr (Nat.zero_lt_of_lt h)
    rw [lookUntil, look, call]
    rcases ask s with ⟨_ | w, s'⟩
    · exact ih (Nat.lt_of_succ_lt_succ h)
    · rfl

/-- When a stack answers nothing, no source is left. -/
theorem call_eq_of_none (h : (call ask ss).1 = none) : (call ask ss).2 = [] := by
  induction ss with
  | nil => rfl
  | cons s older ih =>
    cases hs : (ask s).1 with
    | none =>
      rw [call_of_none hs] at h ⊢
      exact ih h
    | some w =>
      rw [call_of_some hs] at h
      cases h

/-- A word comes from the first source that has one, and those before it are taken off. -/
theorem exists_of_call_eq_some {w : String} (h : (call ask ss).1 = some w) :
    ∃ spent s older, ss = spent ++ s :: older ∧ (∀ s' ∈ spent, (ask s').1 = none) ∧
      (ask s).1 = some w ∧ (call ask ss).2 = (ask s).2 :: older := by
  induction ss with
  | nil => cases h
  | cons s older ih =>
    cases hs : (ask s).1 with
    | none =>
      rw [call_of_none hs] at h ⊢
      obtain ⟨spent, s₁, older₁, hss, hspent, hanswer, hrest⟩ := ih h
      refine ⟨s :: spent, s₁, older₁, ?_, ?_, hanswer, hrest⟩
      · rw [hss, List.cons_append]
      · rw [List.forall_mem_cons]
        exact ⟨hs, hspent⟩
    | some v =>
      rw [call_of_some hs] at h ⊢
      exact ⟨[], s, older, rfl, nofun, hs.trans h, rfl⟩

/-! ### The words on a stack -/

/-- The sources of a stack have these words to deliver, those of the newest first. -/
def Undelivered (ask : σ → Option String × σ) (ss : List σ) (q : List String) : Prop :=
  ∃ parts, List.Forall₂ (Delivers ask) ss parts ∧ parts.flatten = q

namespace Undelivered

theorem nil : Undelivered ask [] [] := ⟨[], .nil, rfl⟩

/-- The words of a new source come first. -/
theorem push (hs : Delivers ask s words) (h : Undelivered ask older q) :
    Undelivered ask (s :: older) (words ++ q) := by
  obtain ⟨parts, hparts, rfl⟩ := h
  exact ⟨words :: parts, .cons hs hparts, rfl⟩

theorem exists_of_cons (h : Undelivered ask (s :: older) q) :
    ∃ words q', Delivers ask s words ∧ Undelivered ask older q' ∧ q = words ++ q' := by
  obtain ⟨parts, hparts, rfl⟩ := h
  obtain ⟨words, parts, hs, holder, rfl⟩ := List.forall₂_cons_left_iff.mp hparts
  exact ⟨words, parts.flatten, hs, ⟨parts, holder, rfl⟩, rfl⟩

/-- A stack has no two lists of words to deliver. -/
theorem unique {q' : List String} (h : Undelivered ask ss q) (h' : Undelivered ask ss q') :
    q = q' := by
  obtain ⟨parts, hparts, rfl⟩ := h
  obtain ⟨parts', hparts', rfl⟩ := h'
  rw [List.right_unique_forall₂' (rightUnique_delivers ask) hparts hparts']

/-- **A read takes the first word and leaves the others.** -/
theorem next (h : Undelivered ask ss q) :
    (call ask ss).1 = q.head? ∧ Undelivered ask (call ask ss).2 q.tail := by
  induction ss generalizing q with
  | nil =>
    rw [h.unique nil]
    exact ⟨rfl, nil⟩
  | cons s older ih =>
    obtain ⟨words, q, hs, holder, rfl⟩ := h.exists_of_cons
    obtain ⟨hanswer, hrest⟩ := delivers_iff.mp hs
    cases words with
    | nil =>
      -- the source is taken off, and with it no word of the queue
      rw [call_of_none hanswer]
      exact ih holder
    | cons w words =>
      rw [call_of_some hanswer]
      exact ⟨rfl, holder.push hrest⟩

/-- A stack is a source: it delivers what is on it. -/
theorem delivers (h : Undelivered ask ss q) : Delivers (call ask) ss q := by
  intro n
  induction n generalizing ss q with
  | zero => simp [answers, deliveries]
  | succ n ih => rw [answers, deliveries_succ, h.next.1, ih h.next.2]

/-- What has no answer has nothing to deliver. -/
theorem delivers_nil (h : Undelivered ask ss q) (hs : s ∈ ss) (hnone : (ask s).1 = none) :
    Delivers ask s [] := by
  obtain ⟨parts, hparts, -⟩ := h
  induction hparts with
  | nil => cases hs
  | cons hfirst _ ih =>
    rcases List.mem_cons.mp hs with rfl | hs
    · rwa [hfirst.eq_nil hnone] at hfirst
    · exact ih hs

/-- Sources without a word can be taken off wherever they are. -/
theorem filter (h : Undelivered ask ss q) :
    Undelivered ask (ss.filter fun s => (ask s).1.isSome) q := by
  induction ss generalizing q with
  | nil => exact h
  | cons s older ih =>
    obtain ⟨words, q, hs, holder, rfl⟩ := h.exists_of_cons
    cases hanswer : (ask s).1 with
    | none =>
      rw [List.filter_cons_of_neg (by simp [hanswer]), hs.eq_nil hanswer]
      exact ih holder
    | some w =>
      rw [List.filter_cons_of_pos (by simp [hanswer])]
      exact (ih holder).push hs

end Undelivered

/-- What a read does to a stack that has these words to deliver. -/
structure ReadsFirst (ask : σ → Option String × σ) (ss : List σ) (q : List String) : Prop where
  /-- It ends, after no more looks than there are sources and one at the end of the stack. -/
  ends : ∀ bound, ss.length < bound → lookUntil ask bound ss = some (call ask ss)
  /-- It answers the first word. -/
  answer : (call ask ss).1 = q.head?
  /-- It leaves the others. -/
  rest : Undelivered ask (call ask ss).2 q.tail
  /-- It answers nothing exactly when there is no word. -/
  eq_none_iff : (call ask ss).1 = none ↔ q = []
  /-- Then it leaves no source. -/
  emptied : (call ask ss).1 = none → (call ask ss).2 = []
  /-- It takes a word from the first source that has one, and takes off those that stand before it
  and have nothing to deliver. -/
  skips : ∀ w, (call ask ss).1 = some w → ∃ spent s older,
    ss = spent ++ s :: older ∧ (∀ s' ∈ spent, Delivers ask s' []) ∧ (ask s).1 = some w ∧
      (call ask ss).2 = (ask s).2 :: older

theorem Undelivered.readsFirst (h : Undelivered ask ss q) : ReadsFirst ask ss q := by
  obtain ⟨hanswer, hrest⟩ := h.next
  constructor
  · exact fun bound hbound => lookUntil_eq hbound
  · exact hanswer
  · exact hrest
  · rw [hanswer, List.head?_eq_none_iff]
  · exact call_eq_of_none
  · intro w hw
    obtain ⟨spent, s, older, hss, hspent, hword, hleft⟩ := exists_of_call_eq_some hw
    refine ⟨spent, s, older, hss, fun s' hs' => ?_, hword, hleft⟩
    have hmem : s' ∈ ss := hss ▸ List.mem_append_left (s :: older) hs'
    exact h.delivers_nil hmem (hspent s' hs')

end Stacked

/-! ## Runs -/

namespace Feed

open Stacked (Undelivered)

variable {σ : Type} {ask : σ → Option String × σ} {toCome : σ → List String}
  {steps : List (FeedStep σ)} {ss : List σ} {q : List String}

/-- A stack of sources, the newest first. -/
def stack (ask : σ → Option String × σ) : Feed σ (List σ) where
  push s ss := s :: ss
  next ss := Stacked.call ask ss
  empty := []

/-- **What is done to a stack is done to a queue.**  The reads answer the same, and the queue is
what the sources that are left have to deliver. -/
theorem run_stack (hsteps : ∀ s, .push s ∈ steps → Delivers ask s (toCome s))
    (h : Undelivered ask ss q) :
    ((stack ask).run steps ss).1 = (queue.run (steps.map (·.map toCome)) q).1 ∧
      Undelivered ask ((stack ask).run steps ss).2 (queue.run (steps.map (·.map toCome)) q).2 := by
  induction steps generalizing ss q with
  | nil => exact ⟨rfl, h⟩
  | cons step steps ih =>
    have hlater : ∀ s, .push s ∈ steps → Delivers ask s (toCome s) :=
      fun s hs => hsteps s (List.mem_cons_of_mem step hs)
    cases step with
    | push s => exact ih hlater (h.push (hsteps s List.mem_cons_self))
    | clear => exact ih hlater .nil
    | next =>
      obtain ⟨hanswer, hrest⟩ := h.next
      obtain ⟨hanswers, hleft⟩ := ih hlater hrest
      exact ⟨congrArg₂ List.cons hanswer hanswers, hleft⟩

/-- To put on a source without a word does nothing to the queue. -/
theorem run_queue_filter (hsteps : ∀ s, .push s ∈ steps → Delivers ask s (toCome s))
    (q : List String) :
    queue.run ((steps.filter (FeedStep.keeps fun s => (ask s).1.isSome)).map (·.map toCome)) q =
      queue.run (steps.map (·.map toCome)) q := by
  induction steps generalizing q with
  | nil => rfl
  | cons step steps ih =>
    have ih := ih fun s hs => hsteps s (List.mem_cons_of_mem step hs)
    cases step with
    | push s =>
      cases hanswer : (ask s).1 with
      | none =>
        have hwords : toCome s = [] := (hsteps s List.mem_cons_self).eq_nil hanswer
        rw [List.filter_cons_of_neg (by simp [FeedStep.keeps, hanswer]), ih q, List.map_cons,
          FeedStep.map, hwords]
        rfl
      | some w =>
        rw [List.filter_cons_of_pos (by simp [FeedStep.keeps, hanswer])]
        exact ih (toCome s ++ q)
    | clear => exact ih []
    | next =>
      have ih := ih q.tail
      exact congrArg (fun r => (q.head? :: r.1, r.2)) ih

end Feed

/-! ## The sources of a calculator -/

/-- Ask the sources of a calculator for a word.  When there is none, no source is left. -/
def Sources.call (ss : Sources) : Option String × Sources :=
  match ss.next? with
  | some (w, ss') => (some w, ss')
  | none => (none, [])

namespace Stacked

theorem call_source (ss : Sources) : call Source.call ss = ss.call := by
  induction ss with
  | nil => rfl
  | cons s older ih =>
    rw [call, Source.call, Sources.call, Sources.next?]
    cases s.next? with
    | none => exact ih
    | some r => rfl

theorem undelivered_pending (ss : Sources) : Undelivered Source.call ss ss.pending := by
  induction ss with
  | nil => exact .nil
  | cons s older ih => exact ih.push (Source.takesFirst_call.delivers s)

end Stacked

/-! ## Texts and scripts -/

/-- The kinds of sources on the stack of a calculator. -/
inductive SourceKind where
  | text
  | script

namespace SourceKind

/-- A text has its words ready, and a script is read line by line. -/
def State : SourceKind → Type
  | .text => List String
  | .script => LineReader

/-- Ask a source of this kind. -/
def call : ∀ k : SourceKind, k.State → Option String × k.State
  | .text, (words : List String) => (words.head?, words.tail)
  | .script, (r : LineReader) => r.call

/-- The words that are to come. -/
def toCome : (Σ k : SourceKind, k.State) → List String
  | ⟨.text, words⟩ => words
  | ⟨.script, r⟩ => LineReader.toCome r

theorem takesFirst_text : TakesFirst (call .text) id := ⟨fun _ => rfl, fun _ => rfl⟩

theorem delivers_toCome (s : Σ k : SourceKind, k.State) :
    Delivers (dispatch call) s (toCome s) := by
  obtain ⟨k, s⟩ := s
  rw [delivers_dispatch_iff]
  cases k with
  | text => exact takesFirst_text.delivers s
  | script => exact LineReader.takesFirst_call.delivers s

/-- A script that was begun, beneath a text that was read. -/
def begun : List (Σ k : SourceKind, k.State) :=
  [⟨.text, ([] : List String)⟩, ⟨.script, ({ ready := ["a"], unread := [10, 98] } : LineReader)⟩]

/-- A script that is put on while another is read, and texts without a word. -/
def interleaved : List (FeedStep (Σ k : SourceKind, k.State)) :=
  [.next, .push ⟨.text, ([] : List String)⟩,
    .push ⟨.script, ({ unread := [10, 120, 32, 121, 10] } : LineReader)⟩, .next,
    .push ⟨.text, ([] : List String)⟩, .next, .next, .next]

end SourceKind

/-! ## The theorem -/

/-- **A stack of sources is one queue of words.**  Whatever is done to it, its reads answer what the
reads of a queue answer, and the words in the queue are those that the sources on the stack have yet
to deliver.  So every read ends and gives the first of them, or nothing when there is none, and then
no source is left.  Sources without a word make no difference, wherever they stand or are put.  Each
word that is put in comes out, is left or was dropped by a clearing, and without a clearing those
that wait keep their order.  The start can be any stack, so this holds from every moment on. -/
theorem stack_refines_queue {σ : Type} {ask : σ → Option String × σ} {toCome : σ → List String}
    {steps : List (FeedStep σ)} (hsteps : ∀ s, .push s ∈ steps → Delivers ask s (toCome s))
    {start : List σ} {q₀ : List String} (hstart : Stacked.Undelivered ask start q₀) :
    (∀ ss : Sources, Stacked.call Source.call ss = ss.call ∧
      Stacked.Undelivered Source.call ss ss.pending) ∧
    ∃ answered left q,
      (Feed.stack ask).run steps start = (answered, left) ∧
      Feed.queue.run (steps.map (·.map toCome)) q₀ = (answered, q) ∧
      (∀ q', Stacked.Undelivered ask left q' ↔ q' = q) ∧
      Stacked.ReadsFirst ask left q ∧
      Delivers (Stacked.call ask) left q ∧
      ((Feed.stack ask).run (steps.filter (FeedStep.keeps fun s => (ask s).1.isSome))
        (start.filter fun s => (ask s).1.isSome)).1 = answered ∧
      (answered.reduceOption ++ q ++ Feed.dropped (steps.map (·.map toCome)) q₀).Perm
        ((steps.map (·.map toCome)).flatMap FeedStep.offered ++ q₀) ∧
      (.clear ∉ steps →
        Feed.dropped (steps.map (·.map toCome)) q₀ = [] ∧
        q₀.Sublist (answered.reduceOption ++ q)) := by
  refine ⟨fun ss => ⟨Stacked.call_source ss, Stacked.undelivered_pending ss⟩, ?_⟩
  obtain ⟨hanswers, hleft⟩ := Feed.run_stack hsteps hstart
  refine ⟨((Feed.stack ask).run steps start).1, ((Feed.stack ask).run steps start).2,
    (Feed.queue.run (steps.map (·.map toCome)) q₀).2, rfl, ?_, ?_, hleft.readsFirst,
    hleft.delivers, ?_, ?_, ?_⟩
  · rw [hanswers]
  · exact fun q' => ⟨fun h => h.unique hleft, fun h => h ▸ hleft⟩
  · have hkept : ∀ s, .push s ∈ steps.filter (FeedStep.keeps fun s => (ask s).1.isSome) →
        Delivers ask s (toCome s) :=
      fun s hs => hsteps s (List.mem_of_mem_filter hs)
    rw [(Feed.run_stack hkept hstart.filter).1, Feed.run_queue_filter hsteps, hanswers]
  · rw [hanswers]
    exact Feed.queue_perm _ q₀
  · intro hclear
    have hmap : .clear ∉ steps.map (·.map toCome) := FeedStep.clear_notMem_map hclear
    rw [hanswers]
    exact ⟨Feed.dropped_eq_nil hmap q₀, Feed.queue_sublist hmap q₀⟩

open SourceKind in
theorem stack_refines_queue_interleaved :
    (∀ s, .push s ∈ interleaved → Delivers (dispatch call) s (toCome s)) ∧
    Stacked.Undelivered (dispatch call) begun ["a", "b"] ∧
    ∃ left, (Feed.stack (dispatch call)).run interleaved begun =
        ([some "a", some "x", some "y", some "b", none], left) ∧
      Stacked.call (dispatch call) left = (none, []) := by
  have hsteps : ∀ s, .push s ∈ interleaved → Delivers (dispatch call) s (toCome s) :=
    fun s _ => delivers_toCome s
  have hbegun : Stacked.Undelivered (dispatch call) begun ["a", "b"] :=
    (Stacked.Undelivered.nil.push (delivers_toCome _)).push (delivers_toCome _)
  obtain ⟨-, answered, left, q, hstack, hqueue, -, hreads, -⟩ :=
    stack_refines_queue hsteps hbegun
  have hrun : Feed.queue.run (interleaved.map (·.map toCome)) ["a", "b"] =
      ([some "a", some "x", some "y", some "b", none], []) := by decide
  obtain ⟨rfl, rfl⟩ := Prod.mk.inj (hqueue.symm.trans hrun)
  have hnone := hreads.eq_none_iff.mpr rfl
  exact ⟨hsteps, hbegun, left, hstack, Prod.ext hnone (hreads.emptied hnone)⟩

/-- A source whose last word was read is still on the stack. -/
example : (Feed.stack Source.call).run [.push (.words ["a"]), .next] [] =
    ([some "a"], [.words []]) := rfl

end RpnCalculator
