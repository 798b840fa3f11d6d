import SyncEngine.DriveJob.ItemPlan

/-! # The names a plan gives

A planned name's key was free and is taken from then on, and giving one fails for want
of room in the set alone.
-/

namespace SyncEngine.DriveJob

open List

/-! ## Uuids are names -/

theorem mem_uuidText {uuid : Uuid} {c : Char} (h : c ∈ uuidText uuid) :
    c = '-' ∨ ∃ d < 16, c = Nat.digitChar d := by
  obtain ⟨i, -, hc⟩ := mem_flatMap.mp h
  split at hc
  · rcases mem_cons.mp hc with rfl | hc
    · exact Or.inl rfl
    · exact Or.inr ⟨_, Nat.mod_lt _ (by decide), mem_singleton.mp hc⟩
  · exact Or.inr ⟨_, Nat.mod_lt _ (by decide), mem_singleton.mp hc⟩

theorem length_uuidText (uuid : Uuid) : (uuidText uuid).length = 36 := by
  have hone : ∀ i, (let digit := Nat.digitChar (uuid.toNat / 16 ^ (31 - i) % 16)
      if i = 8 ∨ i = 12 ∨ i = 16 ∨ i = 20 then ['-', digit] else [digit]).length =
      if i = 8 ∨ i = 12 ∨ i = 16 ∨ i = 20 then 2 else 1 := by
    intro i
    split <;> rfl
  unfold uuidText
  rw [length_flatMap]
  simp only [hone]
  decide

theorem forall_uuidText {P : Char → Prop} (hyphen : P '-') (digit : ∀ d < 16, P (Nat.digitChar d))
    {uuid : Uuid} : ∀ c ∈ uuidText uuid, P c := by
  intro c hc
  rcases mem_uuidText hc with rfl | ⟨d, hd, rfl⟩
  · exact hyphen
  · exact digit d hd

theorem ascii_uuidText {uuid : Uuid} : ∀ c ∈ uuidText uuid, c.toNat < 128 :=
  forall_uuidText (by decide) (by decide)

theorem wellFormed_uuidText (uuid : Uuid) : WellFormedName (uuidText uuid) := by
  have hlen := length_uuidText uuid
  have hplain : ∀ c ∈ uuidText uuid, c ≠ ' ' ∧ c ≠ '.' ∧ forbidden c = false :=
    forall_uuidText (by decide) (by decide)
  constructor
  · constructor <;>
      · intro h
        rw [h] at hlen
        cases hlen
  · intro h
    exact (hplain ' ' (mem_of_head? h)).1 rfl
  · constructor
    · intro h
      exact (hplain '.' (mem_of_getLast? h)).2.1 rfl
    intro h
    exact (hplain ' ' (mem_of_getLast? h)).1 rfl
  · exact fun c hc => (hplain c hc).2.2
  unfold isReservedNameOnWindows
  split
  · rename_i h
    rw [h] at hlen
    cases hlen
  · rename_i h
    rw [h] at hlen
    cases hlen
  · rfl

variable {u : Unicode}

theorem validated_uuidName (uuid : Uuid) : Validated u (uuidName uuid) := by
  have hnfc : u.nfc (uuidText uuid) = uuidText uuid := by
    have h := @Unicode.nfc_ascii_append u (uuidText uuid) [] ascii_uuidText u.nfc_nil (fun c hc => by cases hc)
    rwa [append_nil] at h
  have hlen : ¬ maxBytes < utf8Len (uuidText uuid) := by
    rw [utf8Len_of_ascii ascii_uuidText, length_uuidText]
    decide
  have hne : uuidText uuid ≠ [] := by
    intro h
    have hlength := length_uuidText uuid
    rw [h] at hlength
    cases hlength
  refine ⟨uuidText uuid, ?_⟩
  unfold parseName parseNameKind
  rw [hnfc, (wellFormed_uuidText uuid).checkName, if_neg hne, if_neg hlen]
  rfl

theorem validated_of_parse {name : Name} {sourceName : SourceName}
    (h : SourceName.parse u name = .ok sourceName) : Validated u sourceName.intoName := by
  unfold SourceName.parse at h
  split at h
  · rename_i hname
    cases h
    exact ⟨name, hname⟩
  cases hencoded : encodeName u.nfc name with
  | error e =>
    rw [hencoded] at h
    cases h
  | ok valid =>
    rw [hencoded] at h
    cases h
    unfold encodeName at hencoded
    cases hparse : parseName u.nfc (encodeNameRaw (u.nfc name)) with
    | error e =>
      rw [hparse] at hencoded
      cases hencoded
    | ok other =>
      rw [hparse] at hencoded
      cases hencoded
      exact ⟨_, hparse⟩

/-- A name given where some names are taken, and what is taken then. -/
structure Gives (u : Unicode) (taken : TakenNames) (name : ValidatedName) (next : TakenNames) :
    Prop where
  keys : next.keys = u.lower name.text :: taken.keys
  runs : RunsOk next

/-- The shapes of planned items fit every name. -/
def Shape (shape : NameShape) : Prop := ∀ name, shape.Fits name

variable {taken next : TakenNames} {shape : NameShape} {uuid : Uuid} {fuel : Nat}
  {name given : ValidatedName} {reason : Option RenameReason} {source : Option Name}

section

variable (hruns : RunsOk taken)
include hruns

section

variable (hshape : Shape shape)
include hshape

theorem not_refused (hname : Validated u name)
    {error : EntryNameError} : taken.allocate u fuel name shape ≠ some (.refused error next) := by
  intro h
  obtain ⟨given, hnone⟩ := hruns.takes hname (hshape _) h
  exact hnone

theorem gives_of_named (hname : Validated u name)
    (h : taken.allocate u fuel name shape = some (.named given next)) : Gives u taken given next := by
  obtain ⟨other, rfl, hkeys, hnext⟩ := hruns.takes hname (hshape _) h
  exact ⟨hkeys, hnext⟩

theorem gives_of_byUuid
    (h : byUuid u fuel taken uuid shape = .ok (given, next)) : Gives u taken given next := by
  unfold byUuid at h
  cases hout : taken.allocate u fuel (uuidName uuid) shape with
  | none =>
    rw [hout] at h
    cases h
  | some out =>
    rw [hout] at h
    cases out with
    | named name taken =>
      cases h
      exact gives_of_named hruns hshape (validated_uuidName uuid) hout
    | refused error taken => exact absurd hout (not_refused hruns hshape (validated_uuidName uuid))
    | aborted => cases h

theorem gives_of_uuidNamed {why : RenameReason}
    (h : (do
      let (name, taken) ← byUuid u fuel taken uuid shape
      .ok ((name, some why), taken)) = .ok ((given, reason), next)) : Gives u taken given next := by
  cases hout : byUuid u fuel taken uuid shape with
  | error halt =>
    rw [hout] at h
    cases h
  | ok out =>
    rw [hout] at h
    cases h
    exact gives_of_byUuid hruns hshape hout

theorem gives_of_allocateName
    (h : allocateName u fuel taken uuid source shape = .ok ((given, reason), next)) :
    Gives u taken given next := by
  unfold allocateName at h
  cases source with
  | none => exact gives_of_uuidNamed hruns hshape h
  | some name =>
    dsimp only at h
    split at h
    · exact gives_of_uuidNamed hruns hshape h
    rename_i sourceName hparse
    have hvalid := validated_of_parse hparse
    split at h
    · cases h
    · cases h
    · rename_i hout
      exact absurd hout (not_refused hruns hshape hvalid)
    rename_i hout
    cases h
    exact gives_of_named hruns hshape hvalid hout

end

end

/-! ## Planning ends -/

/-- A computation with rounds enough comes to one answer: a result, or the process dying,
which happens where something is full alone. -/
def Ends {α : Type} (full : Prop) (f : Nat → Except Halt α) : Prop :=
  (∃ a, ∃ fuel₀, ∀ fuel ≥ fuel₀, f fuel = .ok a) ∨
    full ∧ ∃ fuel₀, ∀ fuel ≥ fuel₀, f fuel = .error .aborted

section Ends

variable {α β : Type} {full : Prop}

theorem ends_ok (a : α) : Ends full fun _ => .ok a := Or.inl ⟨a, 0, fun _ _ => rfl⟩

/-- A computation followed by others ends when the first does and the others do after
what it can result in. -/
theorem Ends.bind {f : Nat → Except Halt α} {g : α → Nat → Except Halt β} (hf : Ends full f)
    (hg : ∀ a, (∃ fuel, f fuel = .ok a) → Ends full (g a)) :
    Ends full fun fuel => f fuel >>= fun a => g a fuel := by
  rcases hf with ⟨a, n, ha⟩ | ⟨hfull, n, ha⟩
  · rcases hg a ⟨n, ha n (Nat.le_refl n)⟩ with ⟨b, m, hb⟩ | ⟨hfull, m, hb⟩
    · refine Or.inl ⟨b, max n m, fun fuel hfuel => ?_⟩
      dsimp only
      rw [ha fuel (by omega)]
      exact hb fuel (by omega)
    refine Or.inr ⟨hfull, max n m, fun fuel hfuel => ?_⟩
    dsimp only
    rw [ha fuel (by omega)]
    exact hb fuel (by omega)
  refine Or.inr ⟨hfull, n, fun fuel hfuel => ?_⟩
  dsimp only
  rw [ha fuel hfuel]
  rfl

end Ends

theorem allocate_ends (hruns : RunsOk taken) (hshape : Shape shape) (hname : Validated u name) :
    (∃ given next, ∃ fuel₀, ∀ fuel ≥ fuel₀,
        taken.allocate u fuel name shape = some (.named given next)) ∨
      taken.keys.length = maxKeys ∧ ∃ fuel₀, ∀ fuel ≥ fuel₀,
        taken.allocate u fuel name shape = some .aborted := by
  obtain ⟨given, -, -, -, out, hout, hrun⟩ := hruns.allocate hname (hshape _)
  cases out with
  | named name next => exact Or.inl ⟨name, next, hrun⟩
  | refused error next => exact absurd hout id
  | aborted => exact Or.inr ⟨hout, hrun⟩

theorem byUuid_ends (hruns : RunsOk taken) (hshape : Shape shape) :
    Ends (taken.keys.length = maxKeys) fun fuel => byUuid u fuel taken uuid shape := by
  unfold byUuid
  rcases allocate_ends hruns hshape (validated_uuidName uuid) with ⟨given, next, n, hrun⟩ | ⟨hfull, n, hrun⟩
  · refine Or.inl ⟨(given, next), n, fun fuel hfuel => ?_⟩
    dsimp only
    rw [hrun fuel hfuel]
    rfl
  refine Or.inr ⟨hfull, n, fun fuel hfuel => ?_⟩
  dsimp only
  rw [hrun fuel hfuel]
  rfl

theorem allocateName_ends (hruns : RunsOk taken) (hshape : Shape shape) :
    Ends (taken.keys.length = maxKeys) fun fuel => allocateName u fuel taken uuid source shape := by
  unfold allocateName
  cases source with
  | none => exact (byUuid_ends hruns hshape).bind fun _ _ => ends_ok _
  | some name =>
    dsimp only
    cases hparse : SourceName.parse u name with
    | error error => exact (byUuid_ends hruns hshape).bind fun _ _ => ends_ok _
    | ok sourceName =>
      rcases allocate_ends hruns hshape (validated_of_parse hparse) with
        ⟨given, next, n, hrun⟩ | ⟨hfull, n, hrun⟩
      · refine Or.inl ⟨((given, renameReason sourceName given), next), n, fun fuel hfuel => ?_⟩
        dsimp only
        rw [hrun fuel hfuel]
      refine Or.inr ⟨hfull, n, fun fuel hfuel => ?_⟩
      dsimp only
      rw [hrun fuel hfuel]

end SyncEngine.DriveJob
