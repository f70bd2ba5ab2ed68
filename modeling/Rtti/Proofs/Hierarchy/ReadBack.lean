import Mathlib.Data.List.Permutation
import Rtti.Proofs.Hierarchy.Edges
import Rtti.Proofs.Hierarchy.Sketch
import Rtti.Proofs.Text.Lines

/-!
# Drawings read back

A drawing determines what it draws: the root, and the children of each class
that can be reached from it (`Drawing.children_eq_of_render_eq`).  The names may
have blanks and branches of their own, as long as none has a line feed or ends
in the mark of a repeated class (`Legible`).

Lines determine a sketch (`Sketch.lines_injective`).  The lines below a class go
on after the indentation with a bar or with blanks, and those of its later
siblings with a branch, so it can be told where one part ends and the other
begins.  A sketch determines the children of its classes, as each class stands
in it once without a mark and with all its children (`Sketch.Shows`).
-/

namespace Rtti.Drawing

open Rtti.Graph

/-- The name is one line and cannot be taken for a shorter one with a mark. -/
structure Legible (name : String) : Prop where
  feed : '\n' ∉ name.toList
  mark : ¬repeatMark.toList <:+ name.toList

instance (name : String) : Decidable (Legible name) :=
  decidable_of_iff ('\n' ∉ name.toList ∧ ¬repeatMark.toList <:+ name.toList)
    ⟨fun legible => ⟨legible.1, legible.2⟩, fun legible => ⟨legible.feed, legible.mark⟩⟩

namespace Sketch

/-- The siblings. -/
def names : Sketch → List String
  | blank => []
  | entry name _ _ later => name :: later.names

/-- The siblings and the classes below them. -/
def mentioned : Sketch → List String
  | blank => []
  | entry name _ below later => name :: (below.mentioned ++ later.mentioned)

/-- The sketch has the class, without a mark and with these children. -/
def Shows (name : String) (children : List String) : Sketch → Prop
  | blank => False
  | entry other repeated below later =>
    (other = name ∧ repeated = false ∧ below.names = children) ∨
      below.Shows name children ∨ later.Shows name children

variable {sketch sketch' : Sketch} {map : InheritanceMap}
  {expanded siblings children : List String} {name child indent : String}

/-! ## Lines -/

theorem length_branch (sketch : Sketch) : sketch.branch.toList.length = 4 := by
  cases sketch with
  | blank => decide
  | entry => exact (by decide : "├── ".toList.length = 4)

/-- A branch does not begin with a bar. -/
theorem exists_branch_eq (sketch : Sketch) :
    ∃ c rest, sketch.branch.toList = c :: rest ∧ c ≠ '│' := by
  cases sketch with
  | blank => exact ⟨_, _, (by decide : "└── ".toList = '└' :: ['─', '─', ' ']), by decide⟩
  | entry => exact ⟨_, _, (by decide : "├── ".toList = '├' :: ['─', '─', ' ']), by decide⟩

theorem branch_eq_iff : sketch.branch = sketch'.branch ↔ (sketch = blank ↔ sketch' = blank) := by
  cases sketch <;> cases sketch' <;> simp [branch]

theorem continuation_eq (hlast : sketch = blank ↔ sketch' = blank) :
    sketch.continuation = sketch'.continuation := by
  cases sketch <;> cases sketch' <;> simp_all [continuation]

/-- A name can be told from the mark that may follow it. -/
theorem eq_of_marked_eq {name name' : String} {repeated repeated' : Bool} (hname : Legible name)
    (hname' : Legible name')
    (heq : name.toList ++ (if repeated then " [...]" else "").toList =
      name'.toList ++ (if repeated' then " [...]" else "").toList) :
    name = name' ∧ repeated = repeated' := by
  cases repeated <;> cases repeated' <;>
    simp only [Bool.false_eq_true, if_false, if_true, String.toList_empty, List.append_nil] at heq
  · exact ⟨String.toList_inj.1 heq, rfl⟩
  · exact absurd ⟨name'.toList, heq.symm⟩ hname.mark
  · exact absurd ⟨name.toList, heq⟩ hname'.mark
  · exact ⟨String.toList_inj.1 (List.append_cancel_right heq), rfl⟩

/-- A line can be divided into what stands before a name, the name, and its
mark. -/
theorem eq_of_line_eq {later later' : Sketch} {name name' : String} {repeated repeated' : Bool}
    (hname : Legible name) (hname' : Legible name')
    (heq : (indent ++ later.branch ++ name ++ if repeated then " [...]" else "") =
      indent ++ later'.branch ++ name' ++ if repeated' then " [...]" else "") :
    (later = blank ↔ later' = blank) ∧ name = name' ∧ repeated = repeated' := by
  have hlists := congrArg String.toList heq
  simp only [String.toList_append, List.append_assoc, List.append_cancel_left_eq] at hlists
  obtain ⟨hbranch, hmarked⟩ :=
    List.append_inj hlists (by rw [length_branch, length_branch])
  exact ⟨branch_eq_iff.1 (String.toList_inj.1 hbranch), eq_of_marked_eq hname hname' hmarked⟩

/-- The line goes on with a bar after the indentation. -/
def goesOn (indent line : String) : Bool :=
  (indent.toList ++ ['│']).isPrefixOf line.toList

theorem prefix_of_mem_lines {line : String} (hline : line ∈ sketch.lines indent) :
    indent.toList <+: line.toList := by
  induction sketch generalizing indent with
  | blank => contradiction
  | entry name repeated below later ihbelow ihlater =>
    rw [lines, List.mem_cons, List.mem_append] at hline
    rcases hline with rfl | hbelow | hlater
    · simp only [String.toList_append, List.append_assoc]
      exact List.prefix_append _ _
    · refine List.IsPrefix.trans ?_ (ihbelow hbelow)
      rw [String.toList_append]
      exact List.prefix_append _ _
    · exact ihlater hlater

/-- So do the lines below a class with later siblings. -/
theorem goesOn_of_mem_lines {later : Sketch} (hlater : later ≠ blank) {line : String}
    (hline : line ∈ sketch.lines (indent ++ later.continuation)) : goesOn indent line = true := by
  have hprefix := prefix_of_mem_lines hline
  cases later with
  | blank => contradiction
  | entry =>
    rw [goesOn, List.isPrefixOf_iff_prefix]
    refine List.IsPrefix.trans ?_ hprefix
    rw [String.toList_append]
    exact (List.prefix_append_right_inj _).2 (by decide : ['│'] <+: "│   ".toList)

/-- The line of a sibling does not. -/
theorem takeWhile_lines (indent : String) (sketch : Sketch) :
    (sketch.lines indent).takeWhile (goesOn indent) = [] := by
  cases sketch with
  | blank => rfl
  | entry name repeated below later =>
    rw [lines, List.takeWhile_cons_of_neg]
    rw [goesOn, List.isPrefixOf_iff_prefix]
    simp only [String.toList_append, List.append_assoc, List.prefix_append_right_inj]
    obtain ⟨c, rest, hbranch, hc⟩ := exists_branch_eq later
    rw [hbranch, List.cons_append, List.cons_prefix_cons]
    exact fun hprefix => hc hprefix.1.symm

/-- The parts of a list can be told apart by a property that all elements of the
first have and the first element of the second has not. -/
theorem append_inj_of_takeWhile {α : Type} {p : α → Bool} {first first' rest rest' : List α}
    (hfirst : ∀ x ∈ first, p x = true) (hfirst' : ∀ x ∈ first', p x = true)
    (hrest : rest.takeWhile p = []) (hrest' : rest'.takeWhile p = [])
    (heq : first ++ rest = first' ++ rest') : first = first' ∧ rest = rest' := by
  have htaken := congrArg (List.takeWhile p) heq
  rw [List.takeWhile_append_of_pos hfirst, List.takeWhile_append_of_pos hfirst', hrest, hrest',
    List.append_nil, List.append_nil] at htaken
  subst htaken
  exact ⟨rfl, List.append_cancel_left heq⟩

/-- The lines determine the sketch. -/
theorem lines_injective (hlegible : ∀ name ∈ sketch.mentioned, Legible name)
    (hlegible' : ∀ name ∈ sketch'.mentioned, Legible name)
    (heq : sketch.lines indent = sketch'.lines indent) : sketch = sketch' := by
  induction sketch generalizing indent sketch' with
  | blank =>
    cases sketch' with
    | blank => rfl
    | entry => contradiction
  | entry name repeated below later ihbelow ihlater =>
    cases sketch' with
    | blank => contradiction
    | entry name' repeated' below' later' =>
      rw [mentioned, List.forall_mem_cons, List.forall_mem_append] at hlegible hlegible'
      obtain ⟨hname, hbelow, hlater⟩ := hlegible
      obtain ⟨hname', hbelow', hlater'⟩ := hlegible'
      rw [lines, lines, List.cons.injEq] at heq
      obtain ⟨hline, hrest⟩ := heq
      obtain ⟨hlast, rfl, rfl⟩ := eq_of_line_eq hname hname' hline
      by_cases hblank : later = blank
      · obtain rfl := hblank
        obtain rfl := hlast.1 rfl
        rw [lines, List.append_nil, List.append_nil] at hrest
        rw [ihbelow hbelow hbelow' hrest]
      · have hblank' := mt hlast.2 hblank
        obtain ⟨hlines, hsiblings⟩ := append_inj_of_takeWhile
          (fun _ => goesOn_of_mem_lines hblank) (fun _ => goesOn_of_mem_lines hblank')
          (takeWhile_lines indent later) (takeWhile_lines indent later') hrest
        rw [← continuation_eq hlast] at hlines
        rw [ihbelow hbelow hbelow' hlines, ihlater hlater hlater' hsiblings]

theorem feed_not_mem_branch (sketch : Sketch) : '\n' ∉ sketch.branch.toList := by
  cases sketch with
  | blank => decide
  | entry => exact (by decide : '\n' ∉ "├── ".toList)

theorem feed_not_mem_continuation (sketch : Sketch) : '\n' ∉ sketch.continuation.toList := by
  cases sketch with
  | blank => decide
  | entry => exact (by decide : '\n' ∉ "│   ".toList)

/-- The line of a legible name is one line. -/
theorem feed_not_mem_of_mem_lines (hindent : '\n' ∉ indent.toList)
    (hlegible : ∀ name ∈ sketch.mentioned, Legible name) {line : String}
    (hline : line ∈ sketch.lines indent) : '\n' ∉ line.toList := by
  induction sketch generalizing indent with
  | blank => contradiction
  | entry name repeated below later ihbelow ihlater =>
    rw [mentioned, List.forall_mem_cons, List.forall_mem_append] at hlegible
    obtain ⟨hname, hbelow, hlater⟩ := hlegible
    rw [lines, List.mem_cons, List.mem_append] at hline
    rcases hline with rfl | hline | hline
    · have hmark : '\n' ∉ (if repeated then " [...]" else "").toList := by
        cases repeated <;> decide
      simp only [String.toList_append, List.mem_append, not_or]
      exact ⟨⟨⟨hindent, feed_not_mem_branch later⟩, hname.feed⟩, hmark⟩
    · refine ihbelow ?_ hbelow hline
      rw [String.toList_append, List.mem_append, not_or]
      exact ⟨hindent, feed_not_mem_continuation later⟩
    · exact ihlater hindent hlater hline

/-! ## Children -/

theorem names_draw : (draw map expanded siblings).sketch.names = siblings := by
  fun_induction draw map expanded siblings with
  | case1 => rfl
  | case2 _ _ _ _ _ ih => rw [names, ih]
  | case3 _ _ _ _ _ _ ih => rw [names, ih]
  | case4 _ _ _ _ _ _ _ _ ih => rw [names, ih]

theorem names_subset_mentioned : sketch.names ⊆ sketch.mentioned := by
  induction sketch with
  | blank => exact List.Subset.refl _
  | entry name repeated below later _ ihlater =>
    exact List.cons_subset_cons name
      (List.Subset.trans ihlater (List.subset_append_right below.mentioned later.mentioned))

theorem mem_mentioned_of_shows (hshows : sketch.Shows name children) (hchild : child ∈ children) :
    child ∈ sketch.mentioned := by
  induction sketch with
  | blank => exact hshows.elim
  | entry other repeated below later ihbelow ihlater =>
    rw [mentioned, List.mem_cons, List.mem_append]
    rcases hshows with ⟨-, -, rfl⟩ | hbelow | hlater
    · exact .inr (.inl (names_subset_mentioned hchild))
    · exact .inr (.inl (ihbelow hbelow))
    · exact .inr (.inr (ihlater hlater))

/-- A class is shown with its children. -/
theorem eq_children_of_shows (hshows : (draw map expanded siblings).sketch.Shows name children) :
    children = map.children name := by
  fun_induction draw map expanded siblings with
  | case1 => exact hshows.elim
  | case2 expanded other rest hleaf later ih =>
    rcases hshows with ⟨rfl, -, hnames⟩ | hbelow | hlater
    · rw [hleaf, ← hnames, names]
    · exact hbelow.elim
    · exact ih hlater
  | case3 expanded other rest hleaf hdrawn later ih =>
    rcases hshows with ⟨-, hmark, -⟩ | hbelow | hlater
    · contradiction
    · exact hbelow.elim
    · exact ih hlater
  | case4 expanded other rest hleaf hdrawn below later ihbelow ihlater =>
    rcases hshows with ⟨rfl, -, hnames⟩ | hbelow | hlater
    · rw [← hnames, names_draw]
    · exact ihbelow hbelow
    · exact ihlater hlater

theorem mem_or_shows_entry {below later : Sketch} {other : String}
    (hnames : below.names = map.children other)
    (hname : name ∈ other :: expanded ∨ below.Shows name (map.children name)) :
    name ∈ expanded ∨ (entry other false below later).Shows name (map.children name) := by
  rcases hname with hname | hbelow
  · rcases List.mem_cons.1 hname with rfl | hname
    · exact .inr (.inl ⟨rfl, rfl, hnames⟩)
    · exact .inl hname
  · exact .inr (.inr (.inl hbelow))

/-- A class that is drawn with its children by the end of a sketch was so before
or is shown in the sketch. -/
theorem mem_or_shows_of_mem_expanded (hname : name ∈ (draw map expanded siblings).expanded) :
    name ∈ expanded ∨ (draw map expanded siblings).sketch.Shows name (map.children name) := by
  fun_induction draw map expanded siblings with
  | case1 => exact .inl hname
  | case2 expanded other rest hleaf later ih => exact (ih hname).imp_right (.inr ∘ .inr)
  | case3 expanded other rest hleaf hdrawn later ih => exact (ih hname).imp_right (.inr ∘ .inr)
  | case4 expanded other rest hleaf hdrawn below later ihbelow ihlater =>
    rcases ihlater hname with hname | hlater
    · exact mem_or_shows_entry names_draw (ihbelow hname)
    · exact .inr (.inr (.inr hlater))

/-- So is a class that the sketch mentions. -/
theorem mem_or_shows_of_mem_mentioned
    (hname : name ∈ (draw map expanded siblings).sketch.mentioned) :
    name ∈ expanded ∨ (draw map expanded siblings).sketch.Shows name (map.children name) := by
  fun_induction draw map expanded siblings with
  | case1 => contradiction
  | case2 expanded other rest hleaf later ih =>
    rcases List.mem_cons.1 hname with rfl | hname
    · exact .inr (.inl ⟨rfl, rfl, hleaf.symm⟩)
    · exact (ih hname).imp_right (.inr ∘ .inr)
  | case3 expanded other rest hleaf hdrawn later ih =>
    rcases List.mem_cons.1 hname with rfl | hname
    · exact .inl hdrawn
    · exact (ih hname).imp_right (.inr ∘ .inr)
  | case4 expanded other rest hleaf hdrawn below later ihbelow ihlater =>
    rcases List.mem_cons.1 hname with rfl | hname
    · exact mem_or_shows_entry names_draw (.inl List.mem_cons_self)
    · rcases List.mem_append.1 hname with hname | hname
      · exact mem_or_shows_entry names_draw (ihbelow hname)
      · rcases ihlater hname with hname | hlater
        · exact mem_or_shows_entry names_draw (mem_or_shows_of_mem_expanded hname)
        · exact .inr (.inr (.inr hlater))

/-- What is mentioned can be reached from a sibling. -/
theorem exists_reaches_of_mem_mentioned
    (hname : name ∈ (draw map expanded siblings).sketch.mentioned) :
    ∃ sibling ∈ siblings, Reaches map.children sibling name := by
  fun_induction draw map expanded siblings with
  | case1 => contradiction
  | case2 expanded other rest hleaf later ih =>
    rcases List.mem_cons.1 hname with rfl | hname
    · exact ⟨name, List.mem_cons_self, .refl⟩
    · obtain ⟨sibling, hsibling, hreaches⟩ := ih hname
      exact ⟨sibling, List.mem_cons_of_mem _ hsibling, hreaches⟩
  | case3 expanded other rest hleaf hdrawn later ih =>
    rcases List.mem_cons.1 hname with rfl | hname
    · exact ⟨name, List.mem_cons_self, .refl⟩
    · obtain ⟨sibling, hsibling, hreaches⟩ := ih hname
      exact ⟨sibling, List.mem_cons_of_mem _ hsibling, hreaches⟩
  | case4 expanded other rest hleaf hdrawn below later ihbelow ihlater =>
    rcases List.mem_cons.1 hname with rfl | hname
    · exact ⟨name, List.mem_cons_self, .refl⟩
    · rcases List.mem_append.1 hname with hname | hname
      · obtain ⟨sibling, hchild, hreaches⟩ := ihbelow hname
        exact ⟨other, List.mem_cons_self, hreaches.head hchild⟩
      · obtain ⟨sibling, hsibling, hreaches⟩ := ihlater hname
        exact ⟨sibling, List.mem_cons_of_mem _ hsibling, hreaches⟩

/-- The classes below a root can be reached from it. -/
theorem reaches_of_mem_mentioned_outline {root : String}
    (hname : name ∈ (outline root map).mentioned) : Reaches map.children root name := by
  obtain ⟨sibling, hchild, hreaches⟩ := exists_reaches_of_mem_mentioned hname
  exact hreaches.head hchild

/-- What can be reached from a root is the root or is shown below it. -/
theorem eq_or_shows_outline {root : String} (hreaches : Reaches map.children root name) :
    name = root ∨ (outline root map).Shows name (map.children name) := by
  have hmentioned {other : String} (hother : other ∈ (outline root map).mentioned) :
      other = root ∨ (outline root map).Shows other (map.children other) :=
    (mem_or_shows_of_mem_mentioned hother).imp_left List.mem_singleton.1
  induction hreaches with
  | refl => exact .inl rfl
  | tail _ hchild ih =>
    apply hmentioned
    rcases ih with rfl | hshows
    · exact names_subset_mentioned (names_draw.symm ▸ hchild)
    · exact mem_mentioned_of_shows hshows hchild

end Sketch

open Sketch

variable {map map' : InheritanceMap} {root root' : String}

/-- A drawing has the lines of its sketch between its line feeds. -/
theorem splitOn_render (hlegible : ∀ name, Reaches map.children root name → Legible name) :
    (render root map).toList.splitOn '\n' =
      (root :: (outline root map).lines "").map String.toList := by
  rw [render, map_line_nodes, Text.splitOn_intercalate_lines (by simp)]
  refine List.forall_mem_cons.2 ⟨(hlegible root .refl).feed, fun line hline => ?_⟩
  exact feed_not_mem_of_mem_lines (by simp)
    (fun name hname => hlegible name (reaches_of_mem_mentioned_outline hname)) hline

/-- Drawings of legible names that are alike have the same root, and each class
that can be reached from it has the same children. -/
theorem children_eq_of_render_eq
    (hlegible : ∀ name, Reaches map.children root name → Legible name)
    (hlegible' : ∀ name, Reaches map'.children root' name → Legible name)
    (heq : render root map = render root' map') :
    root = root' ∧
      ∀ name, Reaches map.children root name → map.children name = map'.children name := by
  have hlines := splitOn_render hlegible
  rw [heq, splitOn_render hlegible'] at hlines
  obtain ⟨hroot, hbelow⟩ := List.cons.inj
    (List.map_injective_iff.2 (fun _ _ => String.toList_injective) hlines)
  subst hroot
  have hsketch : outline root' map' = outline root' map :=
    lines_injective (fun name hname => hlegible' name (reaches_of_mem_mentioned_outline hname))
      (fun name hname => hlegible name (reaches_of_mem_mentioned_outline hname)) hbelow
  refine ⟨rfl, fun name hreaches => ?_⟩
  rcases eq_or_shows_outline hreaches with rfl | hshows
  · exact names_draw.symm.trans ((congrArg names hsketch).symm.trans names_draw)
  · rw [← hsketch] at hshows
    exact eq_children_of_shows hshows

/-- A name that ends in the mark may be taken for a class in a cycle. -/
example : render "A" (.ofEdges [("A", "A")]) = render "A" (.ofEdges [("A", "A [...]")]) := by cbv

/-- The names that can be reached are legible if those of the map are. -/
theorem legible_of_reaches (hclasses : ∀ name ∈ root :: map.classes, Legible name) (name : String)
    (hreaches : Reaches map.children root name) : Legible name := by
  apply hclasses
  cases hreaches with
  | refl => exact List.mem_cons_self
  | tail _ hchild =>
    exact List.mem_cons_of_mem _ (InheritanceMap.mem_classes_of_mem_children hchild)

/-- Classes in a cycle, one of them with blanks before its name. -/
def crooked : InheritanceMap :=
  .ofEdges [("A", "    B"), ("A", "C"), ("    B", "C"), ("C", "A")]

/-- The drawing does not tell of a class that is not drawn. -/
theorem children_eq_crooked :
    let larger := crooked.addEdge "D" "A"
    crooked ≠ larger ∧ render "A" crooked = render "A" larger ∧
      ∀ name, Reaches crooked.children "A" name → crooked.children name = larger.children name := by
  intro larger
  have hsame : render "A" crooked = render "A" (crooked.addEdge "D" "A") := by cbv
  have hchildren := children_eq_of_render_eq (legible_of_reaches (by decide +kernel))
    (legible_of_reaches (by decide +kernel)) hsame
  exact ⟨by decide +kernel, hsame, hchildren.2⟩

end Rtti.Drawing
