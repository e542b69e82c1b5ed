import MeshNode.Proofs.Codec.BinaryRecords
import MeshNode.Proofs.Codec.JsonRecords
import MeshNode.Proofs.Codec.JsonText
import MeshNode.Proofs.Codec.Timestamps
import MeshNode.Snapshot.Binary

/-! # Snapshots survive both formats

A snapshot that is written as a text or as bytes and read again is the same snapshot if it is valid,
and is turned down for what makes it invalid if it is not.
-/

namespace MeshNode

open Binary

/-! ## Snapshots as JSON values -/

theorem Model.ofJson?_toJson (m : Model) : Model.ofJson? m.toJson = some m := by
  cases m <;> rfl

theorem Source.ofJson?_toJson (s : Source) : Source.ofJson? s.toJson = some s := by
  cases s <;> rfl

namespace Value

theorem ofJson?_toJson (v : Value) : Value.ofJson? v.toJson = some v := by
  cases v with
  | onOff s => cases s <;> rfl
  | level l =>
    have hint : (Json.int l.toInt).int? (-32768) 32767 = some l.toInt :=
      if_pos ⟨l.le_toInt, l.toInt_le⟩
    simp only [toJson, ofJson?, Json.mk, List.map_cons, List.map_nil, Json.variant?, hint,
      Option.map_some, Int16.ofInt_toInt]
  | onPowerUp b => cases b <;> rfl
  | defaultTransition t =>
    simp only [toJson, ofJson?, Json.mk, List.map_cons, List.map_nil, Json.variant?,
      Json.word8?_nat, Option.map_some]
  | lightness l =>
    simp only [toJson, ofJson?, Json.mk, List.map_cons, List.map_nil, Json.variant?,
      Json.word16?_nat, Option.map_some]

theorem toJson_ne_null (v : Value) : v.toJson ≠ .null := by
  cases v <;> simp [toJson, Json.mk]

theorem ofJson?_toJsonOption (v? : Option Value) :
    Json.option? Value.ofJson? (toJsonOption v?) = some v? := by
  cases v? with
  | none => rfl
  | some v =>
    rw [toJsonOption, Json.option?_of_ne_null v.toJson_ne_null, ofJson?_toJson, Option.map_some]

end Value

namespace LightMemory

variable {m : LightMemory} {j a b c d : Json}

theorem ofJson?_of_fields (h : j.record? ["default", "last", "range_min", "range_max"] =
      some [some a, some b, some c, some d])
    (ha : a.word16? = some m.default) (hb : b.word16? = some m.last)
    (hc : c.word16? = some m.rangeMin) (hd : d.word16? = some m.rangeMax) :
    LightMemory.ofJson? j = some m := by
  rw [LightMemory.ofJson?, h]
  simp only [bind, Option.bind, ha, hb, hc, hd, pure]

theorem ofJson?_toJson (m : LightMemory) : LightMemory.ofJson? m.toJson = some m := by
  apply ofJson?_of_fields
  · exact Json.record?_mk [("default", .nat m.default.toNat), ("last", .nat m.last.toNat),
      ("range_min", .nat m.rangeMin.toNat), ("range_max", .nat m.rangeMax.toNat)] (by simp)
  · exact Json.word16?_nat m.default
  · exact Json.word16?_nat m.last
  · exact Json.word16?_nat m.rangeMin
  · exact Json.word16?_nat m.rangeMax

end LightMemory

namespace Change

variable {x : Change} {j a b c d : Json}

theorem ofJson?_of_fields (h : j.record? ["from", "to", "at_ms", "source"] =
      some [some a, some b, some c, some d])
    (ha : Value.ofJson? a = some x.before) (hb : Value.ofJson? b = some x.after)
    (hc : c.word64? = some x.time) (hd : Source.ofJson? d = some x.source) :
    Change.ofJson? j = some x := by
  rw [Change.ofJson?, h]
  simp only [bind, Option.bind, ha, hb, hc, hd, pure]

theorem ofJson?_toJson (x : Change) : Change.ofJson? x.toJson = some x := by
  apply ofJson?_of_fields
  · exact Json.record?_mk [("from", x.before.toJson), ("to", x.after.toJson),
      ("at_ms", .nat x.time.toNat), ("source", x.source.toJson)] (by simp)
  · exact x.before.ofJson?_toJson
  · exact x.after.ofJson?_toJson
  · exact Json.word64?_nat x.time
  · exact x.source.ofJson?_toJson

end Change

namespace History

variable {h : History} {j a b : Json}

theorem ofJson?_of_fields (hj : j.record? ["changes", "limit"] = some [some a, some b])
    (ha : a.list? Change.ofJson? = some h.changes) (hb : b.word64? = some h.limit) :
    History.ofJson? j = some h := by
  rw [History.ofJson?, hj]
  simp only [bind, Option.bind, ha, hb, pure]

theorem ofJson?_toJson (h : History) : History.ofJson? h.toJson = some h := by
  apply ofJson?_of_fields
  · exact Json.record?_mk [("changes", .arr (h.changes.map Change.toJson)),
      ("limit", .nat h.limit.toNat)] (by simp)
  · exact Json.list?_map fun x _ => x.ofJson?_toJson
  · exact Json.word64?_nat h.limit

end History

namespace Snapshot

section Fields

variable {s : Snapshot}
  {j version id taken element model present target scenes light history : Json}

theorem ofJson?_of_fields
    (h : j.record? fieldNames = some [some version, some id, some taken, some element, some model,
      some present, some target, some scenes, some light, some history])
    (hversion : version.word32? = some s.version) (hid : id.text? = some s.id)
    (htaken : taken.text?.bind Instant.ofText? = some s.taken)
    (helement : element.word8? = some s.image.element)
    (hmodel : Model.ofJson? model = some s.image.model)
    (hpresent : Value.ofJson? present = some s.image.present)
    (htarget : Value.ofJson? target = some s.image.target)
    (hscenes : scenes.list? (Json.option? Value.ofJson?) = some s.image.scenes)
    (hlight : LightMemory.ofJson? light = some s.image.light)
    (hhistory : History.ofJson? history = some s.image.history) : ofJson? j = some s := by
  rw [ofJson?, h]
  simp only [bind, Option.bind] at htaken ⊢
  simp only [hversion, hid, htaken, helement, hmodel, hpresent, htarget, hscenes, hlight, hhistory,
    pure]

end Fields

theorem ofJson?_toJson (s : Snapshot) : ofJson? s.toJson = some s := by
  apply ofJson?_of_fields
  · exact Json.record?_mk [("version", .nat s.version.toNat), ("id", .text s.id),
      ("timestamp", .text s.taken.toText), ("element", .nat s.image.element.toNat),
      ("model", s.image.model.toJson), ("present", s.image.present.toJson),
      ("target", s.image.target.toJson), ("scenes", .arr (s.image.scenes.map Value.toJsonOption)),
      ("lightness", s.image.light.toJson), ("history", s.image.history.toJson)] (by simp)
  · exact Json.word32?_nat s.version
  · rfl
  · exact Instant.ofText?_toText s.taken
  · exact Json.word8?_nat s.image.element
  · exact s.image.model.ofJson?_toJson
  · exact s.image.present.ofJson?_toJson
  · exact s.image.target.ofJson?_toJson
  · exact Json.list?_map fun v _ => Value.ofJson?_toJsonOption v
  · exact s.image.light.ofJson?_toJson
  · exact s.image.history.ofJson?_toJson

end Snapshot

/-! ## Snapshots as bytes -/

theorem reads_model (m : Model) : (Reader.choice Model.all).Reads (writeChoice Model.all m) m :=
  Reader.reads_choice (by decide) (Model.mem_all m)

theorem reads_source (s : Source) : (Reader.choice Source.all).Reads (writeChoice Source.all s) s :=
  Reader.reads_choice (by decide) (by cases s <;> decide)

theorem Value.reads (v : Value) : Value.read.Reads v.toBytes v := by
  intro rest
  cases v with
  | onOff s =>
    have hs : (Reader.choice onOffs).Reads (writeChoice onOffs s) s :=
      Reader.reads_choice (by decide) (by cases s <;> decide)
    rw [read, toBytes, List.append_assoc, (Reader.reads_word (by decide)).bind_append]
    exact hs.bind_append _ rest
  | level l =>
    rw [read, toBytes, List.append_assoc, (Reader.reads_word (by decide)).bind_append]
    refine ((Reader.reads_word l.toUInt16.toNat_lt_size).bind_append _ rest).trans ?_
    rw [UInt16.ofNat_toNat]
    rfl
  | onPowerUp b =>
    have hb : (Reader.choice onPowerUps).Reads (writeChoice onPowerUps b) b :=
      Reader.reads_choice (by decide) (by cases b <;> decide)
    rw [read, toBytes, List.append_assoc, (Reader.reads_word (by decide)).bind_append]
    exact hb.bind_append _ rest
  | defaultTransition t =>
    rw [read, toBytes, List.append_assoc, (Reader.reads_word (by decide)).bind_append]
    refine ((Reader.reads_word t.raw.toNat_lt_size).bind_append _ rest).trans ?_
    rw [UInt8.ofNat_toNat]
    rfl
  | lightness l =>
    rw [read, toBytes, List.append_assoc, (Reader.reads_word (by decide)).bind_append]
    refine ((Reader.reads_word l.toNat_lt_size).bind_append _ rest).trans ?_
    rw [UInt16.ofNat_toNat]
    rfl

theorem LightMemory.reads (m : LightMemory) : LightMemory.read.Reads m.toBytes m := by
  intro rest
  rw [read, toBytes, List.append_assoc, List.append_assoc, List.append_assoc,
    (Reader.reads_word m.default.toNat_lt_size).bind_append,
    (Reader.reads_word m.last.toNat_lt_size).bind_append,
    (Reader.reads_word m.rangeMin.toNat_lt_size).bind_append,
    (Reader.reads_word m.rangeMax.toNat_lt_size).bind_append]
  simp only [UInt16.ofNat_toNat]
  rfl

theorem Change.reads (c : Change) : Change.read.Reads c.toBytes c := by
  intro rest
  rw [read, toBytes, List.append_assoc, List.append_assoc, List.append_assoc,
    c.before.reads.bind_append, c.after.reads.bind_append,
    (Reader.reads_word c.time.toNat_lt_size).bind_append, (reads_source c.source).bind_append,
    UInt64.ofNat_toNat]
  rfl

theorem History.reads (h : History) (hlen : h.changes.length < Nat.pow 256 8) :
    History.read.Reads h.toBytes h := by
  have hchanges : (Reader.list Change.read).Reads (writeList Change.toBytes h.changes) h.changes :=
    Reader.reads_list hlen fun c _ => c.reads
  intro rest
  rw [read, toBytes, List.append_assoc, hchanges.bind_append,
    (Reader.reads_word h.limit.toNat_lt_size).bind_append, UInt64.ofNat_toNat]
  rfl

structure Image.IsCountable (i : Image) : Prop where
  scenes : i.scenes.length < UInt64.size
  changes : i.history.changes.length < UInt64.size

theorem Image.reads {i : Image} (h : i.IsCountable) : Image.read.Reads i.toBytes i := by
  have hscenes : (Reader.list (Reader.option Value.read)).Reads
      (writeList (writeOption Value.toBytes) i.scenes) i.scenes :=
    Reader.reads_list h.scenes fun _ _ => Reader.reads_option fun v _ => v.reads
  intro rest
  rw [read, toBytes]
  simp only [List.append_assoc]
  rw [(Reader.reads_word i.element.toNat_lt_size).bind_append, (reads_model i.model).bind_append,
    i.present.reads.bind_append, i.target.reads.bind_append, hscenes.bind_append,
    i.light.reads.bind_append, (i.history.reads h.changes).bind_append, UInt8.ofNat_toNat]
  rfl

namespace Snapshot

/-- The parts of the snapshot are no longer than can be counted in a word, as those of every
snapshot that a machine of that word holds. -/
structure IsCountable (s : Snapshot) : Prop where
  id : s.id.utf8ByteSize < UInt64.size
  image : s.image.IsCountable

variable {s : Snapshot} {err : SnapshotError}

theorem reads (h : s.IsCountable) : read.Reads s.toBytes s := by
  intro rest
  rw [read, toBytes]
  simp only [List.append_assoc]
  rw [(Reader.reads_word s.version.toNat_lt_size).bind_append, (Reader.reads_text h.id).bind_append,
    (Reader.reads_text s.taken.utf8ByteSize_toText_lt).bind_append, Instant.ofText?_toText,
    Reader.ofOption_bind, (Image.reads h.image).bind_append, UInt32.ofNat_toNat]
  rfl

/-! ## Reading what was written -/

theorem accept_some (s : Snapshot) : accept (some s) = s.validate.map fun _ => s := rfl

theorem ofText_toText (s : Snapshot) : ofText s.toText = accept (some s) := by
  rw [ofText, toText, Json.parse?_compact, Option.bind_some, ofJson?_toJson]

/-- Bytes that follow a snapshot make no difference. -/
theorem ofBytes_toBytes (h : s.IsCountable) (rest : List UInt8) :
    ofBytes (s.toBytes ++ rest) = accept (some s) := by
  rw [ofBytes, reads h rest, Option.map_some]

/-- A valid snapshot, of any time and with any texts and values, is read back from what is written
for it in either format. What is written for any other is turned down as the snapshot itself is. -/
theorem survives_both_formats (s : Snapshot) :
    (s.validate = .ok () →
      ofText s.toText = .ok s ∧ (s.IsCountable → ofBytes s.toBytes = .ok s)) ∧
      ∀ err, s.validate = .error err →
        ofText s.toText = .error err ∧ (s.IsCountable → ofBytes s.toBytes = .error err) := by
  have hbytes (h : s.IsCountable) : ofBytes s.toBytes = accept (some s) := by
    rw [← ofBytes_toBytes h [], List.append_nil]
  constructor
  · intro hv
    have haccept : accept (some s) = .ok s := by
      rw [accept_some, hv]
      rfl
    exact ⟨(ofText_toText s).trans haccept, fun h => (hbytes h).trans haccept⟩
  · intro err hv
    have haccept : accept (some s) = .error err := by
      rw [accept_some, hv]
      rfl
    exact ⟨(ofText_toText s).trans haccept, fun h => (hbytes h).trans haccept⟩

/-- A snapshot of a lamp, taken within a leap second and named in need of escapes, and the same in
another format. -/
theorem survives_both_formats_lamp :
    let s : Snapshot :=
      { version := 1
        id := "lämp \"1\"\n\x01"
        taken := ⟨⟨2016, 12, 31, by decide, by decide, by decide⟩, 23, 59, 60, 120000000, by decide,
          by decide, by decide, by decide⟩
        image := ⟨3, .lightness, .lightness 900, .lightness 0, [none, some (.lightness 7)],
          ⟨1200, 5, 1, 65535⟩, ⟨[⟨.lightness 0, .lightness 900, 77, .scene⟩], 32⟩⟩ }
    let t : Snapshot := { s with version := 2 }
    s.validate = .ok () ∧ s.IsCountable ∧ ofText s.toText = .ok s ∧ ofBytes s.toBytes = .ok s ∧
      t.validate = .error (.unsupportedVersion 2 1) ∧ t.IsCountable ∧
      ofText t.toText = .error (.unsupportedVersion 2 1) ∧
      ofBytes t.toBytes = .error (.unsupportedVersion 2 1) := by
  intro s t
  have hs : s.validate = .ok () := rfl
  have ht : t.validate = .error (.unsupportedVersion 2 1) := rfl
  have hcount : s.IsCountable := ⟨by decide +kernel, by decide, by decide⟩
  have hcount' : t.IsCountable := ⟨by decide +kernel, by decide, by decide⟩
  obtain ⟨htext, hbytes⟩ := (survives_both_formats s).1 hs
  obtain ⟨htext', hbytes'⟩ := (survives_both_formats t).2 _ ht
  exact ⟨hs, hcount, htext, hbytes hcount, ht, hcount', htext', hbytes' hcount'⟩

end Snapshot

end MeshNode
