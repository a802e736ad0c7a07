import NestedQuery.Proofs.Spelling

/-!
# Keys under any moves

Whatever pushes and pops a key has gone through, it is the key that spells the steps they have left
(`KeyStack.ofSteps`): the buffer holds the spellings of the steps one after the other, and the marks
are where these start. Each move keeps to this (`apply_ofSteps`), so a key is known from the steps
that remain (`run_eq_ofSteps`). Which push a pop takes back is told from the moves alone: the one
with nothing but `Balanced` moves after it (`LastOpen`).
-/

namespace NestedQuery

open Canonical (Step)

namespace Spelling

/-- A step of a key with `height` others before it. Only a name at the bottom has no brackets. -/
def step (spaceAsPlus : Bool) (height : Nat) : Step → String
  | .name text =>
    if height = 0 then component spaceAsPlus text else "[" ++ name spaceAsPlus text ++ "]"
  | .index position => "[" ++ toString position ++ "]"

/-- The key of steps, the first of which is at the bottom. -/
def key (spaceAsPlus : Bool) (steps : List Step) : String :=
  String.join (steps.mapIdx (step spaceAsPlus))

/-- How many bytes of a key stand before each of its steps, the last step first. -/
def starts (spaceAsPlus : Bool) (steps : List Step) : List Nat :=
  (List.range steps.length).reverse.map fun n => (key spaceAsPlus (steps.take n)).utf8ByteSize

variable {spaceAsPlus : Bool}

theorem key_concat (steps : List Step) (last : Step) :
    key spaceAsPlus (steps ++ [last]) =
      key spaceAsPlus steps ++ step spaceAsPlus steps.length last := by
  rw [key, List.mapIdx_concat, String.join_append, String.join_cons, String.join_nil,
    String.append_empty, ← key]

theorem starts_concat (steps : List Step) (last : Step) :
    starts spaceAsPlus (steps ++ [last]) =
      (key spaceAsPlus steps).utf8ByteSize :: starts spaceAsPlus steps := by
  rw [starts, List.length_append, List.length_singleton, List.range_succ, List.reverse_concat,
    List.map_cons, List.take_left, starts]
  congr 1
  refine List.map_congr_left fun n hn => ?_
  have hn : n < steps.length := by simpa using hn
  rw [List.take_append_of_le_length hn.le]

theorem length_starts (steps : List Step) : (starts spaceAsPlus steps).length = steps.length := by
  rw [starts, List.length_map, List.length_reverse, List.length_range]

/-- Bytes of ASCII are those of their text. -/
theorem toByteArray_ofBytes {bytes : List UInt8} (h : ∀ b ∈ bytes, b < 0x80) :
    (ofBytes bytes).toByteArray = bytes.toByteArray := by
  have hencode : Utf8.encode (ofBytes bytes) = bytes :=
    @Canonical.encode_asciiText ⟨bytes.toArray⟩ h
  rw [Utf8.encode] at hencode
  apply ByteArray.ext
  apply Array.toList_inj.1
  simpa using hencode

end Spelling

namespace KeyStack
variable {spaceAsPlus : Bool}

/-- The key that spells some steps. -/
def ofSteps (spaceAsPlus : Bool) (steps : List Step) : KeyStack where
  spaceAsPlus
  bytes := (Spelling.key spaceAsPlus steps).toByteArray
  marks := Spelling.starts spaceAsPlus steps

/-! ### One move -/

theorem pushBytes_ofSteps {steps : List Step} {last : Step} {added : List UInt8}
    (hascii : ∀ b ∈ added, b < 0x80)
    (hadded : Spelling.ofBytes added = Spelling.step spaceAsPlus steps.length last) :
    (ofSteps spaceAsPlus steps).pushBytes added = ofSteps spaceAsPlus (steps ++ [last]) := by
  have hbytes : added.toByteArray =
      (Spelling.step spaceAsPlus steps.length last).toByteArray := by
    rw [← hadded, Spelling.toByteArray_ofBytes hascii]
  simp only [pushBytes, ofSteps, Spelling.key_concat, Spelling.starts_concat, hbytes,
    String.toByteArray_append, String.size_toByteArray]

/-- A step with others before it is pushed as a bracket group. -/
theorem pushBytes_segment (steps : List Step) (last : Step)
    (h : Spelling.step spaceAsPlus steps.length last = Spelling.group spaceAsPlus last.segment) :
    (ofSteps spaceAsPlus steps).pushBytes (Canonical.segment spaceAsPlus last.segment) =
      ofSteps spaceAsPlus (steps ++ [last]) := by
  apply pushBytes_ofSteps
  · intro b hb
    exact (Canonical.uncut_of_mem_segment hb).ascii
  · rw [Spelling.ofBytes_segment, h]

/-- A push adds the spelling of its step. -/
theorem push_ofSteps (steps : List Step) (last : Step) :
    last.push (ofSteps spaceAsPlus steps) = ofSteps spaceAsPlus (steps ++ [last]) := by
  have hbottom : (ofSteps spaceAsPlus steps).marks.isEmpty = true ↔ steps.length = 0 := by
    rw [List.isEmpty_iff_length_eq_zero, ofSteps, Spelling.length_starts]
  cases last with
  | name text =>
    rw [Step.push, pushName]
    split
    -- a bare name: the plain bytes that skip the encoder are what it would have written
    · rename_i h
      have hstep : Spelling.step spaceAsPlus steps.length (.name text) =
          Spelling.component spaceAsPlus text := if_pos (hbottom.1 h)
      rw [Canonical.encodeName_eq]
      apply pushBytes_ofSteps
      · intro b hb
        exact (Percent.uncut_of_isCanonical (Percent.isCanonical_of_mem_encode hb)).ascii
      · rw [hstep]
        exact Spelling.ofBytes_encode text
    · rename_i h
      have hstep : Spelling.step spaceAsPlus steps.length (.name text) =
          Spelling.group spaceAsPlus (.name text) := if_neg (mt hbottom.2 h)
      exact pushBytes_segment steps (.name text) hstep
  | index position => exact pushBytes_segment steps (.index position) rfl

/-- A pop takes the last step away. -/
theorem pop_ofSteps (steps : List Step) :
    (ofSteps spaceAsPlus steps).pop = ofSteps spaceAsPlus steps.dropLast := by
  rcases List.eq_nil_or_concat steps with rfl | ⟨steps, last, rfl⟩
  · rfl
  · rw [List.concat_eq_append, List.dropLast_concat, ← push_ofSteps, Canonical.pop_push]

/-! ### Any moves -/

/-- A call that changes a key. -/
inductive Move where
  | push (step : Step)
  | pop

namespace Move

def apply (key : KeyStack) : Move → KeyStack
  | .push step => step.push key
  | .pop => key.pop

/-- What a move does to the steps of a key. -/
def follow (steps : List Step) : Move → List Step
  | .push step => steps ++ [step]
  | .pop => steps.dropLast

end Move

/-- The key after some moves, empty at first. -/
def run (spaceAsPlus : Bool) (moves : List Move) : KeyStack :=
  moves.foldl Move.apply { spaceAsPlus }

/-- The steps that have been pushed and not popped, the oldest first. -/
def remaining (moves : List Move) : List Step :=
  moves.foldl Move.follow []

theorem remaining_concat (moves : List Move) (last : Move) :
    remaining (moves ++ [last]) = last.follow (remaining moves) :=
  List.foldl_concat ..

theorem apply_ofSteps (steps : List Step) (move : Move) :
    move.apply (ofSteps spaceAsPlus steps) = ofSteps spaceAsPlus (move.follow steps) := by
  cases move with
  | push step => exact push_ofSteps steps step
  | pop => exact pop_ofSteps steps

/-- A key spells the steps that remain. -/
theorem run_eq_ofSteps (spaceAsPlus : Bool) (moves : List Move) :
    run spaceAsPlus moves = ofSteps spaceAsPlus (remaining moves) := by
  induction moves using List.reverseRecOn with
  | nil => rfl
  | append_singleton moves move ih =>
    rw [run, List.foldl_concat, ← run, ih, apply_ofSteps, remaining_concat]

/-! ### The push that a pop takes back -/

/-- Moves among which each push is taken back by a pop and each pop takes one back. -/
inductive Balanced : List Move → Prop
  | nil : Balanced []
  | round (step : Step) {inner : List Move} (h : Balanced inner) :
    Balanced (.push step :: inner ++ [.pop])
  | append {front back : List Move} (h : Balanced front) (h' : Balanced back) :
    Balanced (front ++ back)

/-- The last push of `moves` that has not been taken back comes right after `before`. -/
def LastOpen (before moves : List Move) : Prop :=
  ∃ step inner, Balanced inner ∧ moves = before ++ .push step :: inner

theorem Balanced.foldl_follow {moves : List Move} (h : Balanced moves) (steps : List Step) :
    moves.foldl Move.follow steps = steps := by
  induction h generalizing steps with
  | nil => rfl
  | round step h ih =>
    rw [List.foldl_concat, List.foldl_cons, ih]
    exact List.dropLast_concat
  | append h h' ih ih' => rw [List.foldl_append, ih, ih']

theorem LastOpen.remaining_pop {before moves : List Move} (h : LastOpen before moves) :
    remaining (moves ++ [.pop]) = remaining before := by
  obtain ⟨step, inner, hinner, rfl⟩ := h
  rw [List.append_assoc, remaining, List.foldl_append]
  exact (hinner.round step).foldl_follow _

theorem not_balanced_open {front back : List Move} (step : Step) (hback : Balanced back) :
    ¬ Balanced (front ++ .push step :: back) := by
  intro h
  have hnone := h.foldl_follow []
  rw [List.foldl_append, List.foldl_cons, hback.foldl_follow, Move.follow] at hnone
  simp at hnone

/-- Of two pushes that are open last, the second does not come after the first. -/
theorem LastOpen.eq_nil {before between moves : List Move} (h : LastOpen before moves)
    (h' : LastOpen (before ++ between) moves) : between = [] := by
  obtain ⟨step, inner, hinner, rfl⟩ := h
  obtain ⟨step', inner', hinner', heq⟩ := h'
  rw [List.append_assoc] at heq
  have heq := List.append_cancel_left heq
  cases between with
  | nil => rfl
  | cons move between =>
    obtain ⟨rfl, rfl⟩ := List.cons.inj heq
    exact absurd hinner (not_balanced_open step' hinner')

theorem LastOpen.unique {before before' moves : List Move} (h : LastOpen before moves)
    (h' : LastOpen before' moves) : before = before' := by
  have ⟨_, _, _, heq⟩ := h
  have ⟨_, _, _, heq'⟩ := h'
  rcases List.append_eq_append_iff.1 (heq.symm.trans heq') with
    ⟨between, rfl, -⟩ | ⟨between, rfl, -⟩
  · rw [h.eq_nil h', List.append_nil]
  · rw [h'.eq_nil h, List.append_nil]

theorem exists_lastOpen {moves : List Move} (h : remaining moves ≠ []) :
    ∃ before, LastOpen before moves := by
  induction hn : moves.length using Nat.strongRecOn generalizing moves with
  | ind n ih =>
    subst hn
    rcases List.eq_nil_or_concat moves with rfl | ⟨front, last, rfl⟩
    · exact absurd rfl h
    · rw [List.concat_eq_append] at h ih ⊢
      cases last with
      | push step => exact ⟨front, step, [], .nil, rfl⟩
      | pop =>
        have hfront : remaining front ≠ [] := by
          intro hnil
          rw [remaining_concat, hnil] at h
          exact h rfl
        -- the pop takes back the push open last, so the one open before that is left
        obtain ⟨before, hlast⟩ := ih front.length (by simp) hfront rfl
        rw [hlast.remaining_pop] at h
        obtain ⟨step, inner, hinner, rfl⟩ := hlast
        obtain ⟨before', step', inner', hinner', rfl⟩ := ih before.length (by simp) h rfl
        exact ⟨before', step', inner' ++ (.push step :: inner ++ [.pop]),
          hinner'.append (hinner.round step), by simp⟩

/-- After any moves a key is the spelling of the steps that remain, one after the other, and its
marks are where each of them starts. A pop restores the key as it was before the push that it takes
back, of which there is one unless no step remains; then it changes nothing. -/
theorem bytes_run (spaceAsPlus : Bool) (moves : List Move) :
    (run spaceAsPlus moves).bytes = (Spelling.key spaceAsPlus (remaining moves)).toByteArray ∧
      (run spaceAsPlus moves).marks = Spelling.starts spaceAsPlus (remaining moves) ∧
      (∀ before, LastOpen before moves →
        run spaceAsPlus (moves ++ [.pop]) = run spaceAsPlus before) ∧
      ((∃! before, LastOpen before moves) ∨
        remaining moves = [] ∧ run spaceAsPlus (moves ++ [.pop]) = run spaceAsPlus moves) := by
  refine ⟨?_, ?_, fun before hlast => ?_, ?_⟩
  · rw [run_eq_ofSteps, ofSteps]
  · rw [run_eq_ofSteps, ofSteps]
  · rw [run_eq_ofSteps, run_eq_ofSteps, hlast.remaining_pop]
  · by_cases hnil : remaining moves = []
    · right
      refine ⟨hnil, ?_⟩
      rw [run_eq_ofSteps, run_eq_ofSteps, remaining_concat, hnil]
      rfl
    · left
      obtain ⟨before, hlast⟩ := exists_lastOpen hnil
      exact ⟨before, hlast, fun other hother => hother.unique hlast⟩

/-- Names of digits at the bottom and above it, an empty one between them, and an index come and
gone. -/
theorem bytes_run_of_digits :
    let before : List Move := [.push (.name "70"), .push (.name ""), .push (.name "a b")]
    let moves : List Move := before ++ [.push (.name "10"), .push (.index 3), .pop]
    LastOpen before moves ∧ (run true moves).bytes = "70[][a+b][%310]".toByteArray ∧
      (run true moves).marks = [9, 4, 2, 0] ∧
      run true (moves ++ [.pop]) = run true before := by
  intro before moves
  have hlast : LastOpen before moves := ⟨.name "10", _, .round (.index 3) .nil, rfl⟩
  obtain ⟨hbytes, hmarks, hpop, -⟩ := bytes_run true moves
  have hspelled : Spelling.key true (remaining moves) = "70[][a+b][%310]" := by cbv
  have hstarts : Spelling.starts true (remaining moves) = [9, 4, 2, 0] := by cbv
  exact ⟨hlast, by rw [hbytes, hspelled], hmarks.trans hstarts, hpop before hlast⟩

end KeyStack

end NestedQuery
