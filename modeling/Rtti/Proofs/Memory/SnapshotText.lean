import Rtti.Memory.SnapshotText
import Rtti.Proofs.Address.Spelling
import Rtti.Proofs.Json.RoundTrip
import Rtti.Proofs.Memory.Run
import Rtti.Proofs.SortedMap.Filling

/-!
# Stored snapshots are loaded again

The writer of snapshots stores every base address, and the reader refuses one
that pointers of the stored width cannot hold.  `Snapshot.ofJson_toJson_eq`
says what becomes of a stored snapshot: the same regions, or a complaint about
the first such base.  It holds for every way to spell records and bytes that can
be read back (`Snapshot.Codec.Lawful`).  JSON with hexadecimal bytes is one,
whatever characters the image name has (`Snapshot.Codec.lawful_json`).
-/

namespace Rtti

namespace Snapshot

variable {s : Snapshot} {width : PointerWidth} {codec : Codec}

/-- Stored bytes and records are read back. -/
structure Codec.Lawful (codec : Codec) : Prop where
  decode_encode (bytes : List UInt8) : codec.decodeBytes (codec.encodeBytes bytes) = .ok bytes
  parse_print (s : Snapshot) : codec.parse? (codec.print (s.record codec)) = some (s.record codec)

/-! ## Records in JSON -/

theorem isNumber_bytes (width : PointerWidth) :
    Json.Token.isNumber (toString width.bytes).toList = true := by
  cases width <;> decide

theorem word?_bytes (width : PointerWidth) :
    (Json.number (toString width.bytes)).word? = some width.bytes := by
  cases width <;> decide

/-- A stored region as a JSON value. -/
def RegionRecord.json (region : RegionRecord) : Json :=
  .object [(some "base", .string (some region.base)), (some "bytes", .string (some region.bytes))]

theorem spelledItems_map_json (regions : List RegionRecord) :
    Json.SpelledItems (regions.map RegionRecord.json) := by
  induction regions with
  | nil => trivial
  | cons region regions ih => exact ⟨⟨rfl, rfl, rfl, rfl, trivial⟩, ih⟩

theorem spelled_json_record (s : Snapshot) : s.record.json.Spelled :=
  ⟨rfl, rfl, rfl, isNumber_bytes s.width, rfl, spelledItems_map_json s.record.regions, trivial⟩

theorem ofJson?_json_region (region : RegionRecord) :
    RegionRecord.ofJson? region.json = some region :=
  rfl

theorem list?_map_json (regions : List RegionRecord) :
    Json.list? RegionRecord.ofJson? (.array (regions.map RegionRecord.json)) = some regions := by
  show (regions.map RegionRecord.json).mapM RegionRecord.ofJson? = some regions
  induction regions with
  | nil => rfl
  | cons region regions ih =>
    rw [List.map_cons, List.mapM_cons, ofJson?_json_region, ih]
    rfl

theorem ofJson?_json_record (s : Snapshot) : Record.ofJson? s.record.json = some s.record := by
  have hfields : s.record.json.fields? ["image_name", "pointer_width", "regions"] =
      some [some (.string (some (s.imageName.getD ""))),
        some (.number (toString s.width.bytes)),
        some (.array (s.record.regions.map RegionRecord.json))] :=
    rfl
  unfold Record.ofJson?
  simp only [hfields, Option.bind_eq_bind, Option.bind_some, Option.map_some, Option.getD_some,
    word?_bytes, list?_map_json, Json.text?]
  rfl

theorem Codec.lawful_json : Codec.json.Lawful where
  decode_encode := HexBytes.decode_encode
  parse_print s := by
    show Json.parse? s.record.json.render >>= Record.ofJson? = some s.record
    rw [Json.parse?_render (spelled_json_record s), Option.bind_eq_bind, Option.bind_some,
      ofJson?_json_record]

theorem ofJson_toJson_eq_snapshot (hcodec : codec.Lawful) (s : Snapshot) :
    ofJson (s.toJson codec) codec = (s.record codec).snapshot codec := by
  rw [ofJson, toJson, hcodec.parse_print]

/-! ## Regions -/

/-- An entry of the regions as it is stored. -/
def stored (codec : Codec) (entry : Address × List UInt8) : RegionRecord :=
  ⟨entry.1.hex .upper 0, codec.encodeBytes entry.2⟩

/-- The first base address of the entries that pointers of the width cannot
hold. -/
def firstMisfit? (width : PointerWidth) (entries : List (Address × List UInt8)) : Option Address :=
  (entries.map Prod.fst).find? fun base => width.maxValue < base.val

/-- What becomes of stored entries: they are read back, or the first misfit is
reported. -/
theorem mapM_region_stored (hcodec : codec.Lawful) (width : PointerWidth)
    (entries : List (Address × List UInt8)) :
    (entries.map (stored codec)).mapM (·.region width codec) =
      match firstMisfit? width entries with
      | none => .ok entries
      | some base => .error (Address.misfit (base.hex .upper 0) width) := by
  induction entries with
  | nil => rfl
  | cons entry entries ih =>
    obtain ⟨base, bytes⟩ := entry
    rw [List.map_cons, List.mapM_cons]
    by_cases hfits : base.val ≤ width.maxValue
    · have hregion : (stored codec (base, bytes)).region width codec = .ok (base, bytes) := by
        simp only [RegionRecord.region, stored, Address.parse_hex, if_pos hfits,
          hcodec.decode_encode]
        rfl
      have hfirst : firstMisfit? width ((base, bytes) :: entries) = firstMisfit? width entries := by
        simp [firstMisfit?, hfits]
      rw [hregion, ih, hfirst]
      cases firstMisfit? width entries <;> rfl
    · have hregion : (stored codec (base, bytes)).region width codec =
          .error (Address.misfit (base.hex .upper 0) width) := by
        simp only [RegionRecord.region, stored, Address.parse_hex, if_neg hfits]
        rfl
      have hfirst : firstMisfit? width ((base, bytes) :: entries) = some base := by
        simp [firstMisfit?, Nat.not_le.1 hfits]
      rw [hregion, hfirst]
      rfl

/-- What becomes of a stored snapshot. -/
theorem ofJson_toJson_eq (hcodec : codec.Lawful) (s : Snapshot) :
    ofJson (s.toJson codec) codec =
      match firstMisfit? s.width s.regions.entries with
      | none => .ok ⟨s.width, some (s.imageName.getD ""), s.regions⟩
      | some base => .error (Address.misfit (base.hex .upper 0) s.width) := by
  have hwidth : PointerWidth.ofBytes (s.record codec).pointerWidth = .ok s.width := by
    show PointerWidth.ofBytes s.width.bytes = _
    cases s.width <;> rfl
  have hregions : (s.record codec).regions.mapM (·.region s.width codec) = _ :=
    mapM_region_stored hcodec s.width s.regions.entries
  rw [ofJson_toJson_eq_snapshot hcodec, Record.snapshot, hwidth]
  show ((s.record codec).regions.mapM (·.region s.width codec) >>= fun regions =>
    Except.ok (Snapshot.mk s.width (some (s.imageName.getD "")) (.ofList regions))) = _
  rw [hregions]
  cases firstMisfit? s.width s.regions.entries with
  | none =>
    show Except.ok (Snapshot.mk _ _ (.ofList s.regions.entries)) = _
    rw [SortedMap.ofList_entries]
  | some base => rfl

theorem firstMisfit?_eq_none_iff {width : PointerWidth} {entries : List (Address × List UInt8)} :
    firstMisfit? width entries = none ↔ ∀ entry ∈ entries, entry.1.val ≤ width.maxValue := by
  simp [firstMisfit?]

/-! ## Loaded snapshots -/

theorem fits_of_region {region : RegionRecord} {entry : Address × List UInt8}
    (hregion : region.region width codec = .ok entry) : entry.1.val ≤ width.maxValue := by
  obtain ⟨base, hbase, hrest⟩ := exists_of_bind_eq_ok hregion
  obtain ⟨bytes, -, hentry⟩ := exists_of_bind_eq_ok hrest
  obtain rfl := Except.ok.inj hentry
  exact (Address.parse_eq_ok_iff.1 hbase).2

theorem fits_of_mapM_region {regions : List RegionRecord} {entries : List (Address × List UInt8)}
    (hregions : regions.mapM (·.region width codec) = .ok entries) :
    ∀ entry ∈ entries, entry.1.val ≤ width.maxValue := by
  induction regions generalizing entries with
  | nil =>
    obtain rfl := Except.ok.inj hregions
    exact List.forall_mem_nil _
  | cons region regions ih =>
    rw [List.mapM_cons] at hregions
    obtain ⟨first, hfirst, hrest⟩ := exists_of_bind_eq_ok hregions
    obtain ⟨others, hothers, hentries⟩ := exists_of_bind_eq_ok hrest
    obtain rfl := Except.ok.inj hentries
    exact List.forall_mem_cons.2 ⟨fits_of_region hfirst, ih hothers⟩

/-- A loaded snapshot has an image name, and pointers can hold its bases. -/
theorem fits_of_ofJson {text : String} (hload : ofJson text codec = .ok s) :
    s.imageName.isSome ∧ ∀ entry ∈ s.regions.entries, entry.1.val ≤ s.width.maxValue := by
  unfold ofJson at hload
  split at hload
  · next record _ =>
    obtain ⟨width, -, hrest⟩ := exists_of_bind_eq_ok hload
    obtain ⟨entries, hentries, hsnapshot⟩ := exists_of_bind_eq_ok hrest
    obtain rfl := Except.ok.inj hsnapshot
    refine ⟨rfl, fun entry hentry => ?_⟩
    have hkey := SortedMap.fst_mem_of_mem_ofList hentry
    obtain ⟨other, hother, hsame⟩ := List.mem_map.1 hkey
    rw [← hsame]
    exact fits_of_mapM_region hentries other hother
  · contradiction

/-- A stored snapshot is loaded again exactly if pointers of its width can hold
all its bases, and then with the same regions; a missing image name becomes the
empty text.  Otherwise a base that they cannot hold is refused.  A snapshot that
was loaded is stored and loaded again without any change.  All this holds for
every codec that reads back what it writes, as the usual one does. -/
theorem ofJson_toJson (s : Snapshot) :
    Codec.json.Lawful ∧ ∀ codec : Codec, codec.Lawful →
      ((∃ loaded, ofJson (s.toJson codec) codec = .ok loaded) ↔
        ∀ base ∈ s.regions.keys, base.val ≤ s.width.maxValue) ∧
      (∀ loaded, ofJson (s.toJson codec) codec = .ok loaded →
        loaded = ⟨s.width, some (s.imageName.getD ""), s.regions⟩) ∧
      (∀ error, ofJson (s.toJson codec) codec = .error error → ∃ base ∈ s.regions.keys,
        s.width.maxValue < base.val ∧ error = .malformedAddress
          s!"{base.hex .upper 0} does not fit in {s.width.bytes} bytes") ∧
      ∀ text, ofJson text codec = .ok s → ofJson (s.toJson codec) codec = .ok s := by
  refine ⟨Codec.lawful_json, fun codec hcodec => ?_⟩
  have hkeys : firstMisfit? s.width s.regions.entries = none ↔
      ∀ base ∈ s.regions.keys, base.val ≤ s.width.maxValue := by
    simp [firstMisfit?, SortedMap.keys]
  rw [← hkeys, ofJson_toJson_eq hcodec]
  cases hmisfit : firstMisfit? s.width s.regions.entries with
  | none =>
    refine ⟨by simp, ?_, nofun, fun text hload => ?_⟩
    · rintro loaded ⟨⟩
      rfl
    · obtain ⟨name, hname⟩ := Option.isSome_iff_exists.1 (fits_of_ofJson hload).1
      rw [hname, Option.getD_some, ← hname]
  | some base =>
    refine ⟨by simp, nofun, ?_, fun text hload => ?_⟩
    · rintro error ⟨⟩
      have hlarge : s.width.maxValue < base.val := by
        simpa using List.find?_some hmisfit
      exact ⟨base, List.mem_of_find?_eq_some hmisfit, hlarge, rfl⟩
    · rw [firstMisfit?_eq_none_iff.2 (fits_of_ofJson hload).2] at hmisfit
      contradiction

/-! ## An example -/

/-- A region at the last address that pointers of 32 bits can hold. -/
def atEdge : Snapshot :=
  addRegion ⟨.bits32, none, .empty⟩ (.ofNat 0xFFFFFFFF) [0x4D, 0x5A]

/-- The example is loaded again, but not with a region one address higher. -/
theorem ofJson_toJson_atEdge :
    ofJson atEdge.toJson = .ok (atEdge.withImageName "") ∧
    ofJson (atEdge.withImageName "").toJson = .ok (atEdge.withImageName "") ∧
    ofJson (atEdge.addRegion (.ofNat 0x100000000) [0x90]).toJson =
      .error (.malformedAddress "0x100000000 does not fit in 4 bytes") := by
  obtain ⟨hjson, hlawful⟩ := ofJson_toJson atEdge
  obtain ⟨hloads, hloaded, -, -⟩ := hlawful .json hjson
  obtain ⟨loaded, hload⟩ := hloads.2 (by decide)
  obtain rfl := hloaded loaded hload
  obtain ⟨-, -, -, hagain⟩ := (ofJson_toJson (atEdge.withImageName "")).2 .json hjson
  obtain ⟨hloads', -, hrefused, -⟩ :=
    (ofJson_toJson (atEdge.addRegion (.ofNat 0x100000000) [0x90])).2 .json hjson
  refine ⟨hload, hagain _ hload, ?_⟩
  cases hresult : ofJson (atEdge.addRegion (.ofNat 0x100000000) [0x90]).toJson with
  | ok loaded => exact absurd (hloads'.1 ⟨loaded, hresult⟩) (by decide)
  | error error =>
    obtain ⟨base, hbase, hlarge, rfl⟩ := hrefused error hresult
    have hkeys : (atEdge.addRegion (.ofNat 0x100000000) [0x90]).regions.keys =
        [.ofNat 0xFFFFFFFF, .ofNat 0x100000000] := by decide
    rw [hkeys] at hbase
    simp only [List.mem_cons, List.not_mem_nil, or_false] at hbase
    rcases hbase with rfl | rfl
    · exact absurd hlarge (by decide)
    · decide +kernel

end Snapshot

end Rtti
