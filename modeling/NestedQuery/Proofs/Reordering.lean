import NestedQuery.Proofs.Exchange
import NestedQuery.Proofs.Same
import NestedQuery.Proofs.Strictness

/-!
# Queries in another order

The order of the pairs in a query matters to those that write into one list and to no others. Runs
of writes that take the same trails leave equal documents (`same_finish`), and pairs that do not
meet in a list may trade places (`exchanges_of_rearranged`); so a query in which the pairs that do
keep their order spells an equal document, or is refused as before: `parse_rearranged`.
-/

namespace NestedQuery

namespace Tree
variable {tree tree' : Tree} {earlier earlier' : List (Trail × String)}
  {writes writes' : List (KeyPath × String)}

theorem Holds.proper_finish (h : tree.Holds earlier) : ∀ e ∈ tree.finish.entries, e.2.Proper :=
  fun e he => (h.filled_finish e he).and (h.distinct_finish.entry e he)

/-- Trees that hold the same texts at the same addresses become equal documents. -/
theorem same_finish (h : tree.Holds earlier) (h' : tree'.Holds earlier')
    (hperm : earlier.Perm earlier') : tree.finish.same tree'.finish = true := by
  have hleaves : tree.finish.root.leaves.Perm tree'.finish.root.leaves :=
    (h.leaves_finish.trans (hperm.map _)).trans h'.leaves_finish.symm
  exact Value.same_map_of_leaves h.proper_finish h'.proper_finish h.distinct_finish.here
    h'.distinct_finish.here (fun leaf => hleaves.mem_iff) fun e he b hb hsame =>
      Value.same_of_leaves (h.proper_finish e he) hb hsame

/-- Runs that may be exchanged are accepted together, with equal documents. -/
theorem Exchanges.finish (h : Exchanges writes writes') :
    ((∃ tree, ofWrites writes = .ok tree) ↔ ∃ tree, ofWrites writes' = .ok tree) ∧
      ∀ tree tree', ofWrites writes = .ok tree → ofWrites writes' = .ok tree' →
        tree.finish.same tree'.finish = true := by
  obtain ⟨hclear, hrecords⟩ := h [] [] (.refl _)
  rw [exists_ofWrites_iff_clear, exists_ofWrites_iff_clear]
  refine ⟨hclear, fun tree tree' htree htree' => ?_⟩
  have hrun := hrecords (exists_ofWrites_iff_clear.1 ⟨tree, htree⟩)
  exact same_finish (holds_of_ofWrites htree) (holds_of_ofWrites htree') hrun

end Tree

namespace Query

/-- The keys of the two pairs come to a list together. -/
def Tied (config : Config) (segment segment' : List UInt8) : Prop :=
  ∃ write ∈ write? config segment, ∃ write' ∈ write? config segment',
    Meet write.1.steps write'.1.steps

/-- Keys with different roots come to no list together. -/
theorem not_tied_of_root_ne {config : Config} {segment segment' : List UInt8}
    {write write' : KeyPath × String} (h : write? config segment = some write)
    (h' : write? config segment' = some write') (hroot : write.1.root ≠ write'.1.root) :
    ¬ Tied config segment segment' := by
  rintro ⟨_, hwrite, _, hwrite', front, s, t, hs, -, hp, hq⟩
  cases h.symm.trans hwrite
  cases h'.symm.trans hwrite'
  cases front with
  | nil =>
    rw [List.nil_append, KeyPath.steps, List.cons_prefix_cons] at hp
    rw [hp.1] at hs
    exact hs rfl
  | cons first front =>
    rw [List.cons_append, KeyPath.steps, List.cons_prefix_cons] at hp hq
    exact hroot (Segment.name.inj (hp.1.symm.trans hq.1))

theorem exchanges_of_rearranged {config : Config} {parts parts' : List (List UInt8)}
    (h : Rearranged (Tied config) parts parts') :
    Tree.Exchanges (parts.filterMap (write? config)) (parts'.filterMap (write? config)) := by
  refine h.of_swaps (R := fun parts parts' => Tree.Exchanges (parts.filterMap (write? config))
    (parts'.filterMap (write? config))) (.refl []) (fun a as bs h => ?_) (fun h h' => h.trans h')
    (fun {a b} as htied => ?_)
  · rw [List.filterMap_cons, List.filterMap_cons]
    cases write? config a with
    | none => exact h
    | some write => exact h.cons write
  · simp only [List.filterMap_cons]
    cases ha : write? config a with
    | none => exact .refl _
    | some write =>
      cases hb : write? config b with
      | none => exact .refl _
      | some write' =>
        refine Tree.exchanges_swap (fun hmeet => htied ?_) _
        exact ⟨write', hb, write, ha, hmeet.symm⟩

/-- The pairs of a query may stand in any order in which those that come to a list together keep
theirs: the query is accepted or not as before, and its document is equal. Nothing is asked of a
pair that cannot be read, since the query is refused wherever it stands. -/
theorem parse_rearranged (config : Config) {input input' : List UInt8}
    (h : Rearranged (Tied config) (spellings input) (spellings input')) :
    ((∃ doc, parse config.unlimited input = .ok doc) ↔
      ∃ doc, parse config.unlimited input' = .ok doc) ∧
    ∀ doc doc', parse config.unlimited input = .ok doc → parse config.unlimited input' = .ok doc' →
      doc.same doc' = true := by
  have hclean : Clean input ↔ Clean input' := by
    rw [clean_iff, clean_iff]
    exact forall_congr' fun segment => imp_congr_left h.perm.mem_iff
  by_cases hinput : Clean input
  · have hinput' := hclean.1 hinput
    obtain ⟨haccepted, hsame⟩ := (exchanges_of_rearranged h).finish
    rw [parse_of_clean hinput, parse_of_clean hinput']
    simp only [Result.exists_map_eq_ok]
    refine ⟨haccepted, fun doc doc' hdoc hdoc' => ?_⟩
    obtain ⟨tree, htree, rfl⟩ := Result.map_eq_ok.1 hdoc
    obtain ⟨tree', htree', rfl⟩ := Result.map_eq_ok.1 hdoc'
    exact hsame tree tree' htree htree'
  · constructor
    · constructor
      · rintro ⟨doc, hdoc⟩
        exact absurd (clean_of_parse config hdoc) hinput
      · rintro ⟨doc, hdoc⟩
        exact absurd (hclean.2 (clean_of_parse config hdoc)) hinput
    · intro doc _ hdoc
      exact absurd (clean_of_parse config hdoc) hinput

/-- A pair moves past one that appends to a list, and the appends keep their order. -/
theorem parse_rearranged_past_append :
    let doc : Document := ⟨[("a", .list [.scalar "1", .scalar "3"]), ("b", .scalar "2")]⟩
    let doc' : Document := ⟨[("b", .scalar "2"), ("a", .list [.scalar "1", .scalar "3"])]⟩
    Rearranged (Tied {}) (spellings (Utf8.encode "a[]=1&b=2&a[]=3"))
        (spellings (Utf8.encode "b=2&a[]=1&a[]=3")) ∧
      parse {} (Utf8.encode "a[]=1&b=2&a[]=3") = .ok doc ∧
      parse {} (Utf8.encode "b=2&a[]=1&a[]=3") = .ok doc' ∧ doc.same doc' = true := by
  intro doc doc'
  have hspellings : spellings (Utf8.encode "a[]=1&b=2&a[]=3") =
      [Utf8.encode "a[]=1", Utf8.encode "b=2", Utf8.encode "a[]=3"] := by cbv
  have hspellings' : spellings (Utf8.encode "b=2&a[]=1&a[]=3") =
      [Utf8.encode "b=2", Utf8.encode "a[]=1", Utf8.encode "a[]=3"] := by cbv
  have hfree : ¬ Tied {} (Utf8.encode "b=2") (Utf8.encode "a[]=1") := by
    have hb : write? {} (Utf8.encode "b=2") = some (⟨"b", []⟩, "2") := by cbv
    have ha : write? {} (Utf8.encode "a[]=1") = some (⟨"a", [.append]⟩, "1") := by cbv
    exact not_tied_of_root_ne hb ha (by decide)
  have hrearranged : Rearranged (Tied {}) (spellings (Utf8.encode "a[]=1&b=2&a[]=3"))
      (spellings (Utf8.encode "b=2&a[]=1&a[]=3")) := by
    rw [hspellings, hspellings']
    refine ⟨[(Utf8.encode "b=2", 1), (Utf8.encode "a[]=1", 0), (Utf8.encode "a[]=3", 2)],
      .swap .., rfl, ?_⟩
    simp [hfree]
  have hread : parse {} (Utf8.encode "a[]=1&b=2&a[]=3") = .ok doc := by cbv
  have hread' : parse {} (Utf8.encode "b=2&a[]=1&a[]=3") = .ok doc' := by cbv
  exact ⟨hrearranged, hread, hread', (parse_rearranged {} hrearranged).2 doc doc' hread hread'⟩

end Query

end NestedQuery
