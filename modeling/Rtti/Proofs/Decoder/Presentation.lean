import Rtti.Proofs.Hierarchy.Sketch
import Rtti.Proofs.Itanium.Visits
import Rtti.Proofs.Itanium.DepthFirst
import Rtti.Proofs.Msvc.AncestorPath

/-!
# Lists and drawings of decoded hierarchies

A hierarchy is presented as the list of its names, which a decoder finds on
its way, or as the drawing of its inheritance map.  Both are a search of the
map from its root, so they show the same classes in the same order
(`drawnNames_of_run_decode`).
-/

namespace Rtti

open Rtti.Graph

namespace ClassHierarchy

/-- A hierarchy that lists its classes in the order of a search of its map
first draws them in that order. -/
theorem eraseDups_drawnNames {h : ClassHierarchy}
    (hsearch : FirstVisits h.map.children [] [h.root] h.names) :
    h.drawnNames.eraseDups = h.names :=
  h.firstVisits_drawnNames.unique hsearch

end ClassHierarchy

/-- A hierarchy is drawn with a line for each of its drawn names, which the recursive
drawing has as well.  The classes that a decoded hierarchy draws are those that it
lists.  They are first drawn in the order of the list, for the MSVC ABI if the names
of the base class array are distinct. -/
theorem drawnNames_of_run_decode (target : Target) (width : PointerWidth) (limits : Limits) :
    (∀ h : ClassHierarchy, ∃ drawn : List Drawing.Node, drawn.map (·.name) = h.drawnNames ∧
      drawn.map Drawing.Node.line = h.root :: (Drawing.Sketch.outline h.root h.map).lines "" ∧
      h.render = "\n".intercalate (drawn.map Drawing.Node.line)) ∧
    (∀ typeInfo h, (Itanium.decode width limits typeInfo).run target = .ok h →
      (∀ name, name ∈ h.drawnNames ↔ name ∈ h.names) ∧ h.drawnNames.eraseDups = h.names) ∧
    ∀ undecorate locator h, (Msvc.decode width limits undecorate locator).run target = .ok h →
      (∀ name, name ∈ h.drawnNames ↔ name ∈ h.names) ∧
        (h.names.Nodup → h.drawnNames.eraseDups = h.names) := by
  refine ⟨fun h => ⟨_, rfl, Drawing.map_line_nodes h.root h.map, rfl⟩, ?_, ?_⟩
  · intro typeInfo h hrun
    obtain ⟨-, hsearch⟩ := Itanium.firstVisits_of_run_decode hrun
    refine ⟨fun name => ?_, ClassHierarchy.eraseDups_drawnNames hsearch⟩
    rw [ClassHierarchy.mem_drawnNames_iff, hsearch.mem_iff_reaches]
  · intro undecorate locator h hrun
    obtain ⟨array, -, hrest⟩ := Inspection.exists_of_run_bind_eq_ok hrun
    obtain ⟨descriptors, -, hlast⟩ := Inspection.exists_of_run_bind_eq_ok hrest
    have hdecoded : Msvc.hierarchy descriptors = .ok h := by
      rwa [Inspection.run_lift rfl] at hlast
    refine ⟨fun name => ?_, fun hdistinct => ?_⟩
    · rw [ClassHierarchy.mem_drawnNames_iff, Msvc.mem_names_iff_reaches hdecoded]
    · exact ClassHierarchy.eraseDups_drawnNames (Msvc.firstVisits_of_hierarchy hdecoded hdistinct)

/-! ## An example -/

/-- The memory of a 32-bit process with a locator of a class with three bases
of distinct names, whose numbers of contained bases contradict each other. -/
def crossedMemory : Snapshot :=
  let words := List.flatMap (Word.toBytes 4)
  let text (s : String) := (Utf8.encode s).rightpad 8 0
  [ (0x20000, List.replicate 16 0 ++ words [0x30000]), (0x30000, words [0, 0, 4, 0x40000]),
    (0x40000, words [0x50000, 0x50008, 0x50010, 0x50018]),
    (0x50000, words [0x60000, 0, 0x60100, 9, 0x60200, 0, 0x60300, 7]),
    (0x60000, List.replicate 12 0 ++ text "Most"), (0x60100, List.replicate 12 0 ++ text "Left"),
    (0x60200, List.replicate 12 0 ++ text "Top"), (0x60300, List.replicate 12 0 ++ text "Right")
    ].foldl (fun s region => s.addRegion (.ofNat region.1) region.2) ⟨.bits32, none, .empty⟩

/-- The classes of the examples are first drawn in the order in which they are
listed. -/
theorem drawnNames_diamond_crossed :
    let diamond : ClassHierarchy := ⟨.itanium, "Bottom", ["Bottom", "Left", "Top", "Right"],
      .ofEdges [("Bottom", "Left"), ("Bottom", "Right"), ("Left", "Top"), ("Right", "Top"),
        ("Right", "Bottom")]⟩
    let crossed : ClassHierarchy := ⟨.msvc, "Most", ["Most", "Left", "Top", "Right"],
      .ofEdges [("Most", "Left"), ("Left", "Top"), ("Left", "Right")]⟩
    ((Itanium.decode .bits64 { nameUnits := 8 } (.ofNat 0x30000)).run
        (Itanium.diamond 0x30300).target = .ok diamond ∧
      diamond.drawnNames.eraseDups = diamond.names) ∧
    (Msvc.decode .bits32 { nameUnits := 8 } .ok (.ofNat 0x20000)).run crossedMemory.target =
        .ok crossed ∧
      crossed.drawnNames.eraseDups = crossed.names := by
  intro diamond crossed
  have hdiamond : (Itanium.decode .bits64 { nameUnits := 8 } (.ofNat 0x30000)).run
      (Itanium.diamond 0x30300).target = .ok diamond := by decide +kernel
  have hcrossed : (Msvc.decode .bits32 { nameUnits := 8 } .ok (.ofNat 0x20000)).run
      crossedMemory.target = .ok crossed := by decide +kernel
  obtain ⟨-, hitanium, -⟩ := drawnNames_of_run_decode (Itanium.diamond 0x30300).target .bits64
    { nameUnits := 8 }
  obtain ⟨-, -, hmsvc⟩ := drawnNames_of_run_decode crossedMemory.target .bits32 { nameUnits := 8 }
  exact ⟨⟨hdiamond, (hitanium _ _ hdiamond).2⟩, hcrossed, (hmsvc _ _ _ hcrossed).2 (by decide)⟩

end Rtti
