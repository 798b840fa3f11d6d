import SyncEngine.Rows.Ranges

/-! # The indexes of a view

Each of the small indexes has its own way through the layers. What each lists is
what the view itself answers with: the folded questions by the key of each row's
path, the unconfirmed rows by the markers advanced over them, the others by a test
of each row.
-/

namespace SyncEngine

open Collections SortedSet List

variable {rest pre dir : Path}

theorem IsTail.collisionKey {fold : CaseFold} (h : IsTail rest) :
    IsTail (fold.collisionKey rest) := by
  rcases h.cases with rfl | ⟨below, rfl⟩
  · exact Or.inl rfl
  rw [CaseFold.collisionKey_slash]
  exact Or.inr rfl

theorem atOrUnder_append_iff {p q : Path} : AtOrUnder (pre ++ p) (pre ++ q) ↔ AtOrUnder p q := by
  rw [atOrUnder_iff_tail, atOrUnder_iff_tail]
  refine exists_congr fun rest => and_congr_right fun _ => ?_
  rw [append_assoc, append_right_inj]

theorem isUnder_append_iff {p q : Path} :
    isUnder (pre ++ p) (pre ++ q) ↔ isUnder p q := by
  rw [isUnder_iff, isUnder_iff]
  refine exists_congr fun rest => ?_
  rw [append_assoc, append_right_inj]

theorem atOrUnder_append_tail (h : IsTail rest) : AtOrUnder (dir ++ rest) dir :=
  atOrUnder_iff_tail.mpr ⟨rest, h, rfl⟩

theorem leaf_append_tail {dir' : Path} (h : IsTail rest) (hne : rest ≠ []) :
    leaf (dir ++ rest) = leaf (dir' ++ rest) := by
  rcases h.cases with rfl | ⟨below, rfl⟩
  · exact absurd rfl hne
  · exact leaf_append_slash dir dir' below

namespace Rows

/-! ## The folded questions -/

/-- Whether a path is one a folded question asks for. -/
def Folds (fold : CaseFold) (folded : Path) (exact : Bool) (path : Path) : Prop :=
  if exact then fold.collisionKey path = folded else AtOrUnder (fold.collisionKey path) folded

section Folded

variable {table : Table} {fold : CaseFold}

theorem mem_baselineFolded {entry : FoldedKey} :
    entry ∈ baselineFolded table fold ↔
      ∃ path, (table.get path).isSome ∧ entry = foldedKey fold path := by
  unfold baselineFolded
  rw [mem_ofList, mem_map]
  refine exists_congr fun path => ?_
  rw [Baseline.mem_rowPaths]
  exact and_congr_right fun _ => eq_comm

variable {folded path : Path} {exact : Bool} {block : Block} {src dst : Path} {layers : List Layer} {rest : Path}

theorem mem_foldedAt :
    path ∈ foldedAt table fold folded ↔
      (table.get path).isSome ∧ fold.collisionKey path = folded := by
  unfold foldedAt
  rw [mem_map]
  constructor
  · rintro ⟨entry, hentry, rfl⟩
    obtain ⟨hmem, hkey⟩ := mem_filter.mp hentry
    obtain ⟨p, hp, rfl⟩ := mem_baselineFolded.mp (mem_def.mpr hmem)
    exact ⟨hp, of_decide_eq_true hkey⟩
  rintro ⟨hp, hkey⟩
  refine ⟨foldedKey fold path, mem_filter.mpr ⟨?_, decide_eq_true hkey⟩, rfl⟩
  exact mem_def.mp (mem_baselineFolded.mpr ⟨path, hp, rfl⟩)

theorem foldedKey_range (h : IsRowPath path) :
    (toLex (folded ++ ['/'], []) < foldedKey fold path ∧
      fold.collisionKey path < folded ++ ['0']) ↔
      isUnder (fold.collisionKey path) folded := by
  rw [← mem_subtreeBounds]
  refine and_congr_left fun _ => ?_
  unfold foldedKey subtreeBounds
  rw [Prod.Lex.toLex_lt_toLex]
  constructor
  · rintro (hlt | ⟨heq, -⟩)
    · exact hlt.le
    · exact heq.le
  intro hle
  exact Or.inl (lt_of_le_of_ne hle (h.collisionKey_ne_slash folded).symm)

theorem mem_foldedUnder :
    path ∈ foldedUnder table fold folded ↔
      (table.get path).isSome ∧ isUnder (fold.collisionKey path) folded := by
  have hrange : ∀ p, (table.get p).isSome →
      ((toLex (folded ++ ['/'], []) < foldedKey fold p ∧ fold.collisionKey p < folded ++ ['0']) ↔
        isUnder (fold.collisionKey p) folded) := by
    intro p hp
    obtain ⟨row, hrow⟩ := Option.isSome_iff_exists.mp hp
    exact foldedKey_range (Baseline.Clean.of_get table.clean hrow)
  have hasc : Ascending id ((baselineFolded table fold).toList.filter fun entry =>
      FoldedKey.folded entry < folded ++ ['0']) :=
    Ascending.filter (baselineFolded table fold).sorted _
  have hlen : (baselineFolded table fold).toList.length ≤ table.rows.length := by
    have hle := length_ofList_le (table.rowPaths.map (foldedKey fold))
    rw [length_map] at hle
    exact hle.trans_eq (length_map _)
  unfold foldedUnder
  rw [hasc.pages_eq page _ _ _ _]
  · rw [mem_map]
    constructor
    · rintro ⟨entry, hentry, rfl⟩
      obtain ⟨hfront, hpast⟩ := mem_filter.mp hentry
      obtain ⟨hmem, hbefore⟩ := mem_filter.mp hfront
      obtain ⟨p, hp, rfl⟩ := mem_baselineFolded.mp (mem_def.mpr hmem)
      exact ⟨hp, (hrange p hp).mp ⟨of_decide_eq_true hpast, of_decide_eq_true hbefore⟩⟩
    rintro ⟨hp, hunder⟩
    obtain ⟨hpast, hbefore⟩ := (hrange path hp).mpr hunder
    refine ⟨foldedKey fold path, mem_filter.mpr ⟨mem_filter.mpr ⟨?_, ?_⟩, ?_⟩, rfl⟩
    · exact mem_def.mp (mem_baselineFolded.mpr ⟨path, hp, rfl⟩)
    · exact decide_eq_true hbefore
    · exact decide_eq_true hpast
  · intro a _ b _ hlt hpast
    exact decide_eq_true (lt_trans (of_decide_eq_true hpast) hlt)
  refine Nat.lt_succ_of_le (le_trans (length_filter_le _ _) ?_)
  exact le_trans (length_filter_le _ _) hlen

theorem mem_foldedIn_nil :
    path ∈ foldedIn table fold [] folded exact ↔
      (getAt table [] path).isSome ∧ Folds fold folded exact path := by
  unfold foldedIn Folds
  rw [mem_append, mem_foldedAt, getAt_nil]
  cases exact with
  | true => simp
  | false =>
    simp only [Bool.false_eq_true, if_false, mem_foldedUnder]
    exact and_or_left.symm

theorem Block.mem_writtenFolded {view : Path → Option BaselineEntry} (h : block.Sound fold view) :
    path ∈ block.writtenFolded folded exact ↔
      (block.written.get path).isSome ∧ Folds fold folded exact path := by
  have hfolded : ∀ p, foldedKey fold p ∈ block.folded.toList ↔
      (block.written.get p).isSome := by
    intro p
    rw [← mem_def, h.folded]
    constructor
    · rintro ⟨q, hq, heq⟩
      have hpath : p = q := congrArg FoldedKey.path heq
      rwa [hpath]
    intro hp
    exact ⟨p, hp, rfl⟩
  have hentry : ∀ entry ∈ block.folded.toList, entry = foldedKey fold (FoldedKey.path entry) := by
    intro entry hmem
    obtain ⟨q, -, rfl⟩ := (h.folded entry).mp (mem_def.mpr hmem)
    rfl
  -- from the first of a folded path on, its entries come first
  have hat : ((block.folded.toList.filter fun entry => toLex (folded, []) ≤ entry).takeWhile
      fun entry => FoldedKey.folded entry = folded) =
      (block.folded.toList.filter fun entry => toLex (folded, []) ≤ entry).filter
        fun entry => decide (FoldedKey.folded entry = folded) := by
    have hasc : Ascending id (block.folded.toList.filter fun entry =>
        toLex (folded, []) ≤ entry) := Ascending.filter block.folded.sorted _
    refine hasc.takeWhile_eq_filter fun a ha b _ hlt hb => decide_eq_true ?_
    have hge := of_decide_eq_true (mem_filter.mp ha).2
    rw [Prod.Lex.le_iff] at hge
    have hle := Prod.Lex.monotone_fst _ _ (le_of_lt hlt)
    have hkey : (ofLex b).1 = folded := of_decide_eq_true hb
    rcases hge with hpast | ⟨heq, -⟩
    · exact absurd (lt_of_lt_of_le hpast (hle.trans_eq hkey)) (lt_irrefl _)
    · exact heq.symm
  have hmemAt : path ∈ ((block.folded.toList.filter fun entry =>
      toLex (folded, []) ≤ entry).filter fun entry =>
        FoldedKey.folded entry = folded).map FoldedKey.path ↔
      (block.written.get path).isSome ∧ fold.collisionKey path = folded := by
    rw [mem_map]
    constructor
    · rintro ⟨entry, hmem, rfl⟩
      obtain ⟨hpast, hkey⟩ := mem_filter.mp hmem
      have hin := (mem_filter.mp hpast).1
      have hself := hentry entry hin
      rw [hself] at hin hkey
      exact ⟨(hfolded _).mp hin, of_decide_eq_true hkey⟩
    rintro ⟨hp, hkey⟩
    refine ⟨foldedKey fold path, mem_filter.mpr ⟨mem_filter.mpr ⟨(hfolded path).mpr hp,
      decide_eq_true ?_⟩, decide_eq_true hkey⟩, rfl⟩
    rw [Prod.Lex.le_iff]
    exact Or.inr ⟨hkey.symm, not_lt.mp (not_lt_nil _)⟩
  unfold writtenFolded Folds
  rw [hat, map_append, mem_append, hmemAt]
  cases exact with
  | true =>
    have hnone : ((block.folded.toList.filter fun entry =>
        toLex (folded ++ ['/'], []) ≤ entry &&
          entry < toLex (folded ++ ['0'], [])).takeWhile fun _ => !true) = [] := by
      cases block.folded.toList.filter _ <;> rfl
    rw [hnone]
    simp
  | false =>
    have hall : ((block.folded.toList.filter fun entry =>
        toLex (folded ++ ['/'], []) ≤ entry &&
          entry < toLex (folded ++ ['0'], [])).takeWhile fun _ => !false) =
        block.folded.toList.filter fun entry =>
          toLex (folded ++ ['/'], []) ≤ entry &&
            decide (entry < toLex (folded ++ ['0'], [])) :=
      takeWhile_eq_self_iff.mpr fun _ _ => rfl
    rw [hall, mem_map]
    have hrange : ∀ p, IsRowPath p →
        ((toLex (folded ++ ['/'], []) ≤ foldedKey fold p ∧
          foldedKey fold p < toLex (folded ++ ['0'], [])) ↔
          isUnder (fold.collisionKey p) folded) := by
      intro p hp
      rw [← foldedKey_range hp]
      have hne : toLex (folded ++ ['/'], []) ≠ foldedKey fold p := fun heq =>
        hp.1 (congrArg FoldedKey.path heq).symm
      rw [hne.le_iff_lt]
      refine and_congr_right fun _ => ?_
      unfold foldedKey
      rw [Prod.Lex.toLex_lt_toLex]
      exact or_iff_left fun hboth => not_lt_nil _ hboth.2
    unfold AtOrUnder
    simp only [Bool.false_eq_true, if_false]
    rw [and_or_left]
    refine or_congr_right ?_
    constructor
    · rintro ⟨entry, hmem, rfl⟩
      obtain ⟨hin, hbounds⟩ := mem_filter.mp hmem
      have hself := hentry entry hin
      rw [hself] at hin hbounds
      have hp := (hfolded _).mp hin
      obtain ⟨row, hrow⟩ := Option.isSome_iff_exists.mp hp
      refine ⟨hp, (hrange _ (h.clean.of_get hrow)).mp ?_⟩
      rwa [Bool.and_eq_true, decide_eq_true_eq, decide_eq_true_eq] at hbounds
    rintro ⟨hp, hunder⟩
    obtain ⟨row, hrow⟩ := Option.isSome_iff_exists.mp hp
    obtain ⟨hlo, hhi⟩ := (hrange _ (h.clean.of_get hrow)).mpr hunder
    refine ⟨foldedKey fold path, mem_filter.mpr ⟨(hfolded path).mpr hp, ?_⟩, rfl⟩
    rw [Bool.and_eq_true, decide_eq_true_eq, decide_eq_true_eq]
    exact ⟨hlo, hhi⟩

theorem isSome_moved_iff
    (h : MovedSound (getAt table layers) src dst) :
    (getAt table (.moved src dst :: layers) path).isSome ↔
      (¬ AtOrUnder path src ∧ (getAt table layers path).isSome) ∨
        ∃ rest, IsTail rest ∧ path = dst ++ rest ∧
          (getAt table layers (src ++ rest)).isSome := by
  simp only [Option.isSome_iff_exists]
  constructor
  · rintro ⟨row, hrow⟩
    rcases (getAt_moved_iff h).mp hrow with ⟨hnot, hold⟩ | ⟨rest, old, htail, hpath, hold, -⟩
    · exact Or.inl ⟨hnot, row, hold⟩
    · exact Or.inr ⟨rest, htail, hpath, old, hold⟩
  rintro (⟨hnot, row, hold⟩ | ⟨rest, htail, hpath, old, hold⟩)
  · exact ⟨row, (getAt_moved_iff h).mpr (Or.inl ⟨hnot, hold⟩)⟩
  · exact ⟨_, (getAt_moved_iff h).mpr (Or.inr ⟨rest, old, htail, hpath, hold, rfl⟩)⟩

theorem isSome_block_iff :
    (getAt table (.block block :: layers) path).isSome ↔
      block.showsBelow path ∧ (getAt table layers path).isSome ∨
        (block.written.get path).isSome := by
  simp only [Option.isSome_iff_exists, getAt_block_iff, exists_or]
  refine or_congr_left ⟨?_, ?_⟩
  · rintro ⟨row, old, hshows, hold, -⟩
    exact ⟨hshows, old, hold⟩
  rintro ⟨hshows, old, hold⟩
  exact ⟨_, old, hshows, hold, rfl⟩

theorem folds_append {pre key : Path} :
    Folds fold (fold.collisionKey pre ++ key) exact (pre ++ rest) ↔ Folds fold key exact rest := by
  unfold Folds
  rw [CaseFold.collisionKey_append, atOrUnder_append_iff, append_right_inj]

theorem not_folds_landed (htail : IsTail rest) (habove : ¬ (exact = false ∧ AtOrUnder (fold.collisionKey dst) folded))
    (hoff : ¬ AtOrUnder folded (fold.collisionKey dst)) : ¬ Folds fold folded exact (dst ++ rest) := by
  have hunder : AtOrUnder (fold.collisionKey (dst ++ rest)) (fold.collisionKey dst) := by
    rw [CaseFold.collisionKey_append]
    exact atOrUnder_append_tail htail.collisionKey
  unfold Folds
  cases exact with
  | true =>
    rw [if_pos rfl]
    intro heq
    exact hoff (heq ▸ hunder)
  | false =>
    rw [if_neg Bool.false_ne_true]
    intro hfolded
    rcases atOrUnder_total hunder hfolded with hover | hover
    · exact habove ⟨rfl, hover⟩
    · exact hoff hover

theorem mem_movedPoint :
    path ∈ (if (carryFlagAt table layers src).isSome then [dst] else []) ↔
      path = dst ∧ (getAt table layers src).isSome := by
  rw [carryFlagAt_eq, Option.isSome_map]
  split
  · rename_i hsome
    rw [mem_singleton]
    exact (and_iff_left hsome).symm
  rename_i hnone
  simp [hnone]

theorem mem_foldedIn (hs : Sound table fold layers)
    :
    path ∈ foldedIn table fold layers folded exact ↔
      (getAt table layers path).isSome ∧ Folds fold folded exact path := by
  induction layers generalizing folded path with
  | nil => exact mem_foldedIn_nil
  | cons layer layers ih =>
    cases layer with
    | block block =>
      unfold foldedIn
      rw [mem_append, mem_filter, ih hs.tail, Block.mem_writtenFolded hs.block,
        isSome_block_iff]
      tauto
    | moved src dst =>
      have hdst := hs.moved.dst_row.1
      have hstayed : path ∈ (foldedIn table fold layers folded exact).filter
          (fun path => !decide (AtOrUnder path src)) ↔
          (¬ AtOrUnder path src ∧ (getAt table layers path).isSome) ∧
            Folds fold folded exact path := by
        rw [mem_filter, ih hs.tail, Bool.not_eq_true', decide_eq_false_iff_not]
        tauto
      -- each way of asking about what landed offers what landed and is asked for
      have hsplit : ∀ landed : List Path,
          (path ∈ landed ↔ ∃ rest, IsTail rest ∧ path = dst ++ rest ∧
            (getAt table layers (src ++ rest)).isSome ∧
            Folds fold folded exact (dst ++ rest)) →
          (path ∈ (foldedIn table fold layers folded exact).filter
              (fun path => !decide (AtOrUnder path src)) ++ landed ↔
            (getAt table (.moved src dst :: layers) path).isSome ∧
              Folds fold folded exact path) := by
        intro landed hlanded
        rw [mem_append, hstayed, hlanded, isSome_moved_iff hs.moved, or_and_right]
        refine or_congr_right ⟨?_, ?_⟩
        · rintro ⟨rest, htail, rfl, hsome, hfolds⟩
          exact ⟨⟨rest, htail, rfl, hsome⟩, hfolds⟩
        rintro ⟨⟨rest, htail, rfl, hsome⟩, hfolds⟩
        exact ⟨rest, htail, rfl, hsome, hfolds⟩
      apply hsplit
      split
      · rename_i habove
        rw [Bool.and_eq_true, Bool.not_eq_true', decide_eq_true_eq] at habove
        obtain ⟨rfl, habove⟩ := habove
        have hfolds : ∀ rest, IsTail rest → Folds fold folded false (dst ++ rest) := by
          intro rest htail
          refine atOrUnder_trans ?_ habove
          rw [CaseFold.collisionKey_append]
          exact atOrUnder_append_tail htail.collisionKey
        rw [mem_append, mem_movedPoint, mem_filterMap]
        constructor
        · rintro (⟨rfl, hsome⟩ | ⟨row, hrow, hmoved⟩)
          · refine ⟨[], Or.inl rfl, (append_nil _).symm, ?_, hfolds [] (Or.inl rfl)⟩
            rwa [append_nil]
          obtain ⟨hview, -⟩ := (rowsIn_under hs.tail src row).mp hrow
          obtain ⟨rest, htail, hpath, rfl⟩ := movedPath_eq_some.mp hmoved
          refine ⟨rest, htail, rfl, ?_, hfolds rest htail⟩
          rw [← hpath, hview]
          rfl
        rintro ⟨rest, htail, rfl, hsome, -⟩
        rcases htail.cases with rfl | ⟨below, rfl⟩
        · rw [append_nil] at hsome ⊢
          exact Or.inl ⟨rfl, hsome⟩
        obtain ⟨row, hrow⟩ := Option.isSome_iff_exists.mp hsome
        have hpath := getAt_relPath table hrow
        refine Or.inr ⟨row, (rowsIn_under hs.tail src row).mpr ⟨?_, ?_⟩, ?_⟩
        · rw [hpath, hrow]
        · rw [hpath]
          exact Or.inr (isUnder_append _ _)
        rw [hpath]
        exact movedPath_append htail
      rename_i habove
      have habove' : ¬ (exact = false ∧ AtOrUnder (fold.collisionKey dst) folded) := by
        simpa using habove
      cases htail' : atOrUnder folded (fold.collisionKey dst) with
      | none =>
        refine iff_of_false (by simp) ?_
        rintro ⟨rest, htail, -, -, hfolds⟩
        exact not_folds_landed htail habove' (atOrUnder_eq_none.mp htail') hfolds
      | some key =>
        obtain ⟨hkey, rfl⟩ := atOrUnder_eq_some.mp htail'
        rcases hkey.cases with rfl | ⟨belowKey, rfl⟩
        · -- only an exact question is about the destination itself
          have hexact : exact := by
            cases exact with
            | true => rfl
            | false =>
              rw [append_nil] at habove'
              exact absurd ⟨rfl, atOrUnder_refl _⟩ habove'
          subst hexact
          rw [mem_movedPoint]
          constructor
          · rintro ⟨rfl, hsome⟩
            refine ⟨[], Or.inl rfl, (append_nil _).symm, ?_, ?_⟩
            · rwa [append_nil]
            rw [folds_append]
            rfl
          rintro ⟨rest, -, rfl, hsome, hfolds⟩
          rw [folds_append] at hfolds
          have hnil : rest = [] := by
            by_contra hne
            exact CaseFold.collisionKey_ne_nil hne hfolds
          subst hnil
          rw [append_nil] at hsome ⊢
          exact ⟨rfl, hsome⟩
        dsimp only
        rw [mem_filterMap]
        constructor
        · rintro ⟨source, hsource, hmoved⟩
          obtain ⟨hsome, hfolds⟩ := (ih hs.tail).mp hsource
          obtain ⟨rest, htail, rfl, rfl⟩ := movedPath_eq_some.mp hmoved
          refine ⟨rest, htail, rfl, hsome, ?_⟩
          rwa [folds_append] at hfolds ⊢
        rintro ⟨rest, htail, rfl, hsome, hfolds⟩
        refine ⟨src ++ rest, (ih hs.tail).mpr ⟨hsome, ?_⟩, movedPath_append htail⟩
        rwa [folds_append] at hfolds ⊢

theorem nodup_paths (fold : CaseFold) {entries : List FoldedKey} (hnd : entries.Nodup)
    (h : ∀ entry ∈ entries, entry = foldedKey fold (FoldedKey.path entry)) :
    (entries.map FoldedKey.path).Nodup := by
  refine List.Nodup.map_on (fun a ha b hb heq => ?_) hnd
  rw [h a ha, h b hb, heq]

theorem not_atOrUnder_of_stayed
    (h : MovedSound (getAt table layers) src dst) (hnot : ¬ AtOrUnder path src)
    (hsome : (getAt table layers path).isSome) : ¬ AtOrUnder path dst :=
  fun hdst => hnot (h.free path hsome hdst)

theorem moved_getD_injective {p q : Path}
    (h : MovedSound (getAt table layers) src dst) (hp : (getAt table layers p).isSome)
    (hq : (getAt table layers q).isSome)
    (heq : (movedPath p src dst).getD p = (movedPath q src dst).getD q) : p = q := by
  -- what stayed is not where anything landed
  have happart : ∀ {a b landing : Path}, (getAt table layers a).isSome →
      movedPath a src dst = none → movedPath b src dst = some landing → a ≠ landing := by
    rintro a b landing ha hstay hmoved rfl
    exact not_atOrUnder_of_stayed h (movedPath_eq_none.mp hstay) ha (atOrUnder_of_movedPath hmoved).2
  cases hmp : movedPath p src dst with
  | none =>
    cases hmq : movedPath q src dst with
    | none => simpa [hmp, hmq] using heq
    | some b => exact absurd (by simpa [hmp, hmq] using heq) (happart hp hmp hmq)
  | some a =>
    cases hmq : movedPath q src dst with
    | none => exact absurd (by simpa [hmp, hmq] using heq.symm) (happart hq hmq hmp)
    | some b =>
      have hab : a = b := by simpa [hmp, hmq] using heq
      rw [hab] at hmp
      exact movedPath_injective hmp hmq

theorem nodup_foldedIn (hs : Sound table fold layers) (folded : Path) :
    (foldedIn table fold layers folded true).Nodup := by
  induction layers generalizing folded with
  | nil =>
    unfold foldedIn foldedAt
    rw [if_pos rfl, append_nil]
    refine nodup_paths fold ((baselineFolded table fold).nodup.filter _)
      fun entry hentry => ?_
    obtain ⟨p, -, rfl⟩ := mem_baselineFolded.mp
      (mem_def.mpr (mem_filter.mp hentry).1)
    rfl
  | cons layer layers ih =>
    cases layer with
    | block block =>
      unfold foldedIn
      rw [nodup_append]
      refine ⟨(ih hs.tail folded).filter _, ?_, ?_⟩
      · have hnone : ∀ entries : List FoldedKey, entries.takeWhile (fun _ => !true) = [] := by
          intro entries
          cases entries <;> rfl
        unfold Block.writtenFolded
        rw [hnone, append_nil]
        refine nodup_paths fold
          ((block.folded.nodup.filter _).sublist (takeWhile_sublist _)) fun entry hentry => ?_
        have hmem := (mem_filter.mp ((takeWhile_sublist _).subset hentry)).1
        obtain ⟨p, -, rfl⟩ := (hs.block.folded entry).mp (mem_def.mpr hmem)
        rfl
      intro p hp q hq heq
      have hshows := (Block.showsBelow_iff.mp (mem_filter.mp hp).2).2
      have hwritten := ((Block.mem_writtenFolded hs.block).mp hq).1
      rw [← heq, hshows] at hwritten
      cases hwritten
    | moved src dst =>
      have hlanded : ∀ landed : List Path, landed.Nodup → (∀ p ∈ landed, AtOrUnder p dst) →
          ((foldedIn table fold layers folded true).filter
            (fun path => !decide (AtOrUnder path src)) ++ landed).Nodup := by
        intro landed hnd hunder
        rw [nodup_append]
        refine ⟨(ih hs.tail folded).filter _, hnd, fun p hp q hq heq => ?_⟩
        obtain ⟨hmem, hnot⟩ := mem_filter.mp hp
        have hsome := ((mem_foldedIn hs.tail).mp hmem).1
        refine not_atOrUnder_of_stayed hs.moved (by simpa using hnot) hsome ?_
        rw [heq]
        exact hunder q hq
      have hpoint : ∀ p ∈ (if (carryFlagAt table layers src).isSome then [dst] else []),
          AtOrUnder p dst := by
        intro p hp
        rw [(mem_movedPoint.mp hp).1]
        exact atOrUnder_refl dst
      apply hlanded
      · split
        · rename_i habove
          cases habove
        split
        · split <;> simp
        · refine (ih hs.tail _).filterMap fun p q out hp hq => movedPath_injective hp hq
        · exact nodup_nil
      split
      · rename_i habove
        cases habove
      split
      · exact hpoint
      · intro p hp
        obtain ⟨source, -, hmoved⟩ := mem_filterMap.mp hp
        exact (atOrUnder_of_movedPath hmoved).2
      intro p hp
      cases hp

end Folded

/-! ## The small indexes -/

section Indexed

variable {table : Table} {fold : CaseFold} {which : Indexed}

variable {src dst path : Path} {layers : List Layer}

theorem Indexed.ofRow_movedTo {row : BaselineEntry} {rest : Path} (htail : IsTail rest)
    (hne : rest ≠ []) (hpath : row.relPath = src ++ rest) :
    which.ofRow (row.movedTo (dst ++ rest)) = which.ofRow row := by
  cases which with
  | uncarryable => rfl
  | ruleFiles =>
    unfold Indexed.ofRow BaselineEntry.isRuleFile BaselineEntry.movedTo
    dsimp only
    rw [hpath, leaf_append_tail htail hne]

theorem Indexed.ofRow_mark (block : Block) (row : BaselineEntry) :
    which.ofRow (block.mark row) = which.ofRow row := by
  unfold Block.mark
  cases which <;> split <;> rfl

theorem mem_indexedMoved {below : List Path} :
    path ∈ (below.filter fun p => p ≠ src).map (fun p => (movedPath p src dst).getD p) ↔
      (path ∈ below ∧ ¬ AtOrUnder path src) ∨
        ∃ rest, IsTail rest ∧ rest ≠ [] ∧ src ++ rest ∈ below ∧ path = dst ++ rest := by
  rw [mem_map]
  constructor
  · rintro ⟨p, hp, rfl⟩
    obtain ⟨hmem, hne⟩ := mem_filter.mp hp
    cases hmoved : movedPath p src dst with
    | none => exact Or.inl ⟨hmem, movedPath_eq_none.mp hmoved⟩
    | some landing =>
      obtain ⟨rest, htail, rfl, rfl⟩ := movedPath_eq_some.mp hmoved
      refine Or.inr ⟨rest, htail, ?_, hmem, rfl⟩
      rintro rfl
      simp at hne
  rintro (⟨hmem, hnot⟩ | ⟨rest, htail, hne, hmem, rfl⟩)
  · refine ⟨path, mem_filter.mpr ⟨hmem, decide_eq_true ?_⟩, ?_⟩
    · rintro rfl
      exact hnot (atOrUnder_refl _)
    rw [movedPath_eq_none.mpr hnot]
    rfl
  refine ⟨src ++ rest, mem_filter.mpr ⟨hmem, decide_eq_true ?_⟩, ?_⟩
  · intro heq
    exact hne (append_right_eq_self.mp heq)
  rw [movedPath_append htail]
  rfl

theorem mem_indexedIn (hs : Sound table fold layers) :
    path ∈ indexedIn table which layers ↔
      ∃ row, getAt table layers path = some row ∧ which.ofRow row := by
  induction layers generalizing path with
  | nil =>
    unfold indexedIn tableIndexed
    rw [mem_map, getAt_nil]
    constructor
    · rintro ⟨row, hrow, rfl⟩
      obtain ⟨hmem, htest⟩ := mem_filter.mp hrow
      exact ⟨row, Baseline.get_of_mem hmem, htest⟩
    rintro ⟨row, hrow, htest⟩
    obtain ⟨hmem, hpath⟩ := Baseline.get_eq_some_iff.mp hrow
    exact ⟨row, mem_filter.mpr ⟨hmem, htest⟩, hpath⟩
  | cons layer layers ih =>
    cases layer with
    | block block =>
      unfold indexedIn
      rw [mem_append, mem_filter, ih hs.tail, mem_map]
      simp only [getAt_block_iff]
      constructor
      · rintro (⟨⟨row, hrow, htest⟩, hshows⟩ | ⟨row, hrow, rfl⟩)
        · exact ⟨block.mark row, Or.inl ⟨row, hshows, hrow, rfl⟩, by rwa [Indexed.ofRow_mark]⟩
        obtain ⟨hmem, htest⟩ := mem_filter.mp hrow
        exact ⟨row, Or.inr (Baseline.get_of_mem hmem), htest⟩
      rintro ⟨row, ⟨old, hshows, hold, rfl⟩ | hrow, htest⟩
      · rw [Indexed.ofRow_mark] at htest
        exact Or.inl ⟨⟨old, hold, htest⟩, hshows⟩
      obtain ⟨hmem, hpath⟩ := Baseline.get_eq_some_iff.mp hrow
      exact Or.inr ⟨row, mem_filter.mpr ⟨hmem, htest⟩, hpath⟩
    | moved src dst =>
      -- the row at the source is asked about under its new name
      have hmem : path ∈ indexedIn table which (.moved src dst :: layers) ↔
          ((path ∈ indexedIn table which layers ∧ ¬ AtOrUnder path src) ∨
            ∃ rest, IsTail rest ∧ rest ≠ [] ∧ src ++ rest ∈ indexedIn table which layers ∧
              path = dst ++ rest) ∨
          path = dst ∧ ∃ row, getAt table layers src = some row ∧
            which.ofRow (row.movedTo dst) := by
        rw [indexedIn]
        cases hsrc : getAt table layers src with
        | none =>
          rw [mem_indexedMoved]
          simp
        | some row =>
          dsimp only
          split
          · rename_i htest
            rw [placed_none] at htest
            rw [mem_append, mem_indexedMoved, mem_singleton]
            simp [htest]
          rename_i htest
          rw [placed_none] at htest
          rw [mem_indexedMoved]
          simp [htest]
      rw [hmem]
      constructor
      · rintro ((⟨hin, hnot⟩ | ⟨rest, htail, hne, hin, rfl⟩) | ⟨rfl, row, hrow, htest⟩)
        · obtain ⟨row, hrow, htest⟩ := (ih hs.tail).mp hin
          exact ⟨row, getAt_stayed hs.moved hnot hrow, htest⟩
        · obtain ⟨row, hrow, htest⟩ := (ih hs.tail).mp hin
          refine ⟨row.movedTo (dst ++ rest), getAt_landed (movedPath_append htail) hrow, ?_⟩
          rwa [Indexed.ofRow_movedTo htail hne (getAt_relPath table hrow)]
        · exact ⟨row.movedTo path, getAt_landed (movedPath_self src path) hrow, htest⟩
      rintro ⟨row, hrow, htest⟩
      rcases (getAt_moved_iff hs.moved).mp hrow with
        ⟨hnot, hold⟩ | ⟨rest, old, htail, rfl, hold, rfl⟩
      · exact Or.inl (Or.inl ⟨(ih hs.tail).mpr ⟨row, hold, htest⟩, hnot⟩)
      by_cases hne : rest = []
      · subst hne
        rw [append_nil] at hold htest ⊢
        exact Or.inr ⟨rfl, old, hold, htest⟩
      rw [Indexed.ofRow_movedTo htail hne (getAt_relPath table hold)] at htest
      exact Or.inl (Or.inr ⟨rest, htail, hne, (ih hs.tail).mpr ⟨old, hold, htest⟩, rfl⟩)

theorem nodup_indexedIn (hs : Sound table fold layers) :
    (indexedIn table which layers).Nodup := by
  induction layers with
  | nil => exact (table.ascending.filter which.ofRow).nodup_keys
  | cons layer layers ih =>
    cases layer with
    | block block =>
      unfold indexedIn
      rw [nodup_append]
      refine ⟨(ih hs.tail).filter _, (block.written.ascending.filter _).nodup_keys, ?_⟩
      intro p hp q hq heq
      have hnone := (Block.showsBelow_iff.mp (mem_filter.mp hp).2).2
      obtain ⟨row, hrow, rfl⟩ := mem_map.mp hq
      have hget := Baseline.get_of_mem (mem_filter.mp hrow).1
      rw [← heq, hnone] at hget
      cases hget
    | moved src dst =>
      have hview : ∀ p ∈ indexedIn table which layers,
          (getAt table layers p).isSome := by
        intro p hp
        obtain ⟨row, hrow, -⟩ := (mem_indexedIn hs.tail).mp hp
        rw [hrow]
        rfl
      have hout : (((indexedIn table which layers).filter fun p => p ≠ src).map
          fun p => (movedPath p src dst).getD p).Nodup := by
        refine List.Nodup.map_on (fun p hp q hq heq => ?_) ((ih hs.tail).filter _)
        exact moved_getD_injective hs.moved (hview p (mem_filter.mp hp).1)
          (hview q (mem_filter.mp hq).1) heq
      have hdst : dst ∉ ((indexedIn table which layers).filter fun p => p ≠ src).map
          fun p => (movedPath p src dst).getD p := by
        rw [mem_indexedMoved]
        rintro (⟨hin, hnot⟩ | ⟨rest, -, hne, -, heq⟩)
        · exact not_atOrUnder_of_stayed hs.moved hnot (hview dst hin) (atOrUnder_refl dst)
        · exact hne (append_right_eq_self.mp heq.symm)
      rw [indexedIn]
      split
      · split
        · rw [nodup_append]
          refine ⟨hout, nodup_singleton _, fun p hp q hq heq => ?_⟩
          rw [mem_singleton.mp hq] at heq
          exact hdst (heq ▸ hp)
        · exact hout
      · exact hout

end Indexed

end Rows

end SyncEngine
