import Mathlib.Order.Interval.Finset.Nat
import SyncEngine.Names.TakenNames

/-! # Skipping taken runs changes no name

The runs cover counters whose candidates are taken, whatever name they are candidates
of, so a walk that jumps them passes no free candidate. There are more counters of one
length than names a set can hold, so the walk ends.
-/

namespace SyncEngine

open Collections TakenNames List

/-! ## What the runs cover -/

/-- The runs are apart, and cover counters of their key's length whose candidates are
taken. -/
structure RunsOk (taken : TakenNames) : Prop where
  apart : ∀ key, (taken.takenRuns key).Apart
  covered : ∀ (key : CounterKey) n, (taken.takenRuns key).Covers n →
    key.text n ∈ taken.keys ∧ utf8Len (counterSuffix n) = key.2.2 ∧ n < maxCounter

section RunsOk

variable {u : Unicode} {taken next : TakenNames} {key : CounterKey} {n last : Nat}

theorem runsOk_empty : RunsOk empty where
  apart _ := ⟨fun _ h => (by cases h), List.Pairwise.nil⟩
  covered _ _ h := by
    obtain ⟨run, hrun, -⟩ := h
    cases hrun

theorem RunsOk.record (h : RunsOk taken) {since : Nat} (hlt : since < last) (hlast : last ≤ maxCounter)
    (hseen : ∀ m, since ≤ m → m < last →
      key.text m ∈ taken.keys ∧ utf8Len (counterSuffix m) = key.2.2) :
    RunsOk (taken.record key since last) := by
  obtain ⟨hapart, hcovers⟩ := Runs.addRun_spec (h.apart key) hlt
  constructor
  · intro other
    dsimp only [TakenNames.record]
    by_cases heq : other = key
    · subst heq
      rw [Function.update_self]
      exact hapart
    rw [Function.update_of_ne heq]
    exact h.apart other
  intro other m hm
  dsimp only [TakenNames.record] at hm ⊢
  by_cases heq : other = key
  · subst heq
    rw [Function.update_self, hcovers] at hm
    rcases hm with hm | ⟨hlo, hhi⟩
    · exact h.covered other m hm
    obtain ⟨htaken, hlen⟩ := hseen m hlo hhi
    exact ⟨htaken, hlen, by omega⟩
  rw [Function.update_of_ne heq] at hm
  exact h.covered other m hm

theorem insertKey_spec {name : Name} :
    (name ∈ taken.keys → taken.insertKey name = some (false, taken)) ∧
      (name ∉ taken.keys → taken.insertKey name = none ∧ taken.keys.length = maxKeys ∨
        ∃ next, taken.insertKey name = some (true, next) ∧ next.keys = name :: taken.keys ∧
          next.takenRuns = taken.takenRuns) := by
  unfold TakenNames.insertKey
  constructor
  · intro hin
    rw [dif_pos hin]
  intro hout
  rw [dif_neg hout]
  by_cases hroom : taken.keys.length < maxKeys
  · rw [dif_pos hroom]
    exact Or.inr ⟨_, rfl, rfl, rfl⟩
  rw [dif_neg hroom]
  exact Or.inl ⟨rfl, le_antisymm taken.fits (Nat.le_of_not_lt hroom)⟩

theorem RunsOk.mono (h : RunsOk taken) (hruns : next.takenRuns = taken.takenRuns)
    (hkeys : ∀ name ∈ taken.keys, name ∈ next.keys) : RunsOk next := by
  constructor
  · intro key
    rw [hruns]
    exact h.apart key
  intro key n hn
  rw [hruns] at hn
  obtain ⟨htaken, hlen, hlt⟩ := h.covered key n hn
  exact ⟨hkeys _ htaken, hlen, hlt⟩

theorem insertKey_cases {name : Name} {free : Bool} (hinsert : taken.insertKey name = some (free, next)) :
    name ∈ taken.keys ∧ next = taken ∨ next.keys = name :: taken.keys ∧ next.takenRuns = taken.takenRuns := by
  by_cases hin : name ∈ taken.keys
  · rw [insertKey_spec.1 hin] at hinsert
    cases hinsert
    exact Or.inl ⟨hin, rfl⟩
  rcases insertKey_spec.2 hin with ⟨hnone, -⟩ | ⟨other, hsome, hgrown⟩
  · cases hnone.symm.trans hinsert
  cases hsome.symm.trans hinsert
  exact Or.inr hgrown

theorem RunsOk.insertKey (h : RunsOk taken) {name : Name} {free : Bool}
    (hinsert : taken.insertKey name = some (free, next)) : RunsOk next := by
  rcases insertKey_cases hinsert with ⟨-, rfl⟩ | ⟨hkeys, hruns⟩
  · exact h
  · exact h.mono hruns fun name hname => hkeys ▸ mem_cons_of_mem _ hname

theorem new_spec {names : List Name} (h : new u names = some taken) :
    RunsOk taken ∧ (∀ key, key ∈ taken.keys ↔ key ∈ names.map u.lower) ∧ taken.keys.length ≤ names.length := by
  have hfold : ∀ (names : List Name) (start taken : TakenNames), RunsOk start →
      names.foldlM (fun taken name => (taken.insert u name).map Prod.snd) start = some taken →
      RunsOk taken ∧ (∀ key, key ∈ taken.keys ↔ key ∈ names.map u.lower ∨ key ∈ start.keys) ∧
        taken.keys.length ≤ names.length + start.keys.length := by
    intro names
    induction names with
    | nil =>
      intro start taken hstart hrun
      cases hrun
      exact ⟨hstart, fun key => by simp, by simp⟩
    | cons name names ih =>
      intro start taken hstart hrun
      rw [foldlM_cons] at hrun
      obtain ⟨next, hone, hrest⟩ := Option.bind_eq_some_iff.mp hrun
      obtain ⟨⟨free, result⟩, hinsert, rfl⟩ := Option.map_eq_some_iff.mp hone
      obtain ⟨hruns, hkeys, hlength⟩ := ih result taken (RunsOk.insertKey hstart hinsert) hrest
      refine ⟨hruns, fun key => (hkeys key).trans ?_, ?_⟩
      · rw [map_cons, mem_cons]
        rcases insertKey_cases hinsert with ⟨hin, rfl⟩ | ⟨hgrown, -⟩
        · exact ⟨Or.imp_left Or.inr, fun h => or_assoc.mp h |>.elim (fun heq => Or.inr (heq ▸ hin)) id⟩
        · rw [hgrown, mem_cons, or_left_comm, or_assoc]
      rw [length_cons]
      rcases insertKey_cases hinsert with ⟨-, rfl⟩ | ⟨hgrown, -⟩
      · omega
      · rw [hgrown, length_cons] at hlength
        omega
  obtain ⟨hruns, hkeys, hlength⟩ := hfold names empty taken runsOk_empty h
  exact ⟨hruns, fun key => (hkeys key).trans (or_iff_left not_mem_nil), hlength⟩

theorem RunsOk.skipTo (h : RunsOk taken) (hskip : taken.skipTo (some key) n = some last) :
    n < last ∧ last ≤ maxCounter ∧ ∀ m, n ≤ m → m < last →
      key.text m ∈ taken.keys ∧ utf8Len (counterSuffix m) = key.2.2 := by
  obtain ⟨hfound, hlt⟩ := Option.filter_eq_some_iff.mp hskip
  rw [Option.bind_some] at hfound
  obtain ⟨run, hrun, rfl⟩ := Option.map_eq_some_iff.mp hfound
  obtain ⟨hmem, hstart⟩ := (h.apart key).lastUpTo_spec hrun
  have hn : n < run.2 := of_decide_eq_true hlt
  have hcovers : ∀ m, n ≤ m → m < run.2 → (taken.takenRuns key).Covers m := fun m hlo hhi =>
    ⟨run, hmem, hstart.trans hlo, hhi⟩
  refine ⟨hn, ?_, fun m hlo hhi => ?_⟩
  · obtain ⟨-, -, hlast⟩ := h.covered key (run.2 - 1) (hcovers _ (by omega) (by omega))
    omega
  obtain ⟨htaken, hlen, -⟩ := h.covered key m (hcovers m hlo hhi)
  exact ⟨htaken, hlen⟩

theorem RunsOk.skipTo_of_free (h : RunsOk taken) (hfree : key.text n ∉ taken.keys) :
    taken.skipTo (some key) n = none := by
  cases hskip : taken.skipTo (some key) n with
  | none => rfl
  | some last =>
    obtain ⟨hlt, -, hseen⟩ := h.skipTo hskip
    exact absurd (hseen n (Nat.le_refl n) hlt).1 hfree

end RunsOk

/-! ## The plain walk -/

section Plain

variable {u : Unicode} {keys : List Name} {stem base ext : Name} {n last fuel : Nat}

theorem CounterKey.text_injective {key : CounterKey} {m n : Nat} (h : key.text m = key.text n)
    (hlen : utf8Len (counterSuffix m) = utf8Len (counterSuffix n)) : m = n := by
  unfold CounterKey.text at h
  rw [append_assoc, append_assoc] at h
  have hrest := append_cancel_left h
  rw [utf8Len_of_ascii fun c hc => (ascii_counterSuffix hc).1,
    utf8Len_of_ascii fun c hc => (ascii_counterSuffix hc).1] at hlen
  exact counterSuffix_injective (append_inj_left hrest hlen)

theorem plainWalk_succ (h : Numberable u base ext) (hn : n ≤ maxCounter) :
    plainWalk u keys stem ext (fuel + 1) base n =
      if u.lower (candidateText base ext n) ∈ keys then
        match nextCounter n with
        | some next => plainWalk u keys stem ext fuel base next
        | none => plainWalk u keys stem ext fuel stem 1
      else some (.ok ⟨candidateText base ext n⟩) := by
  rewrite [plainWalk, h.numberedCandidate hn]
  rfl

theorem plainWalk_skip (h : Numberable u base ext) {out : Except EntryNameError ValidatedName}
    (hlast : last ≤ maxCounter) (hle : n ≤ last)
    (hseen : ∀ m, n ≤ m → m < last → u.lower (candidateText base ext m) ∈ keys)
    (hwalk : plainWalk u keys stem ext fuel base n = some out) :
    ∃ less, less + (last - n) = fuel ∧ plainWalk u keys stem ext less base last = some out := by
  induction fuel generalizing n with
  | zero =>
    cases hwalk
  | succ fuel ih =>
    rcases Nat.eq_or_lt_of_le hle with rfl | hlt
    · exact ⟨fuel + 1, by omega, hwalk⟩
    have hnext : nextCounter n = some (n + 1) := if_pos (lt_of_lt_of_le hlt hlast)
    rw [plainWalk_succ h (by omega), if_pos (hseen n (Nat.le_refl n) hlt), hnext] at hwalk
    obtain ⟨less, hless, hrest⟩ :=
      ih hlt (fun m hlo hhi => hseen m (by omega) hhi) hwalk
    exact ⟨less, by omega, hrest⟩

theorem exists_free (taken : TakenNames) (base ext : Name) :
    ∃ n, 1 ≤ n ∧ n ≤ maxCounter ∧ u.lower (candidateText base ext n) ∉ taken.keys := by
  by_contra hnone
  push Not at hnone
  have hlen : ∀ n ∈ Finset.Ico (10 ^ 18) (10 ^ 19), utf8Len (counterSuffix n) = 22 := by
    intro n hn
    obtain ⟨hlo, hhi⟩ := Finset.mem_Ico.mp hn
    have hle := (Nat.length_toDigits_le_iff (b := 10) (k := 19) (by decide) (by decide)).mpr hhi
    have hnot := mt (Nat.length_toDigits_le_iff (b := 10) (k := 18) (by decide) (by decide)).mp
      (not_lt.mpr hlo)
    rw [utf8Len_counterSuffix]
    omega
  have htext : ∀ n ∈ Finset.Ico (10 ^ 18) (10 ^ 19),
      u.lower (candidateText base ext n) = (counterKey u base ext 22).text n := by
    intro n hn
    rw [lower_candidateText, hlen n hn]
  have hsub : (Finset.Ico (10 ^ 18) (10 ^ 19)).image
      (fun n => (counterKey u base ext 22).text n) ⊆ taken.keys.toFinset := by
    intro name hname
    obtain ⟨n, hn, rfl⟩ := Finset.mem_image.mp hname
    obtain ⟨hlo, hhi⟩ := Finset.mem_Ico.mp hn
    rw [mem_toFinset, ← htext n hn]
    refine hnone n (le_trans (by norm_num) hlo) (le_trans hhi.le ?_)
    unfold maxCounter
    norm_num
  have hcard := Finset.card_le_card hsub
  rw [Finset.card_image_of_injOn, Nat.card_Ico] at hcard
  · have hkeys := (toFinset_card_le taken.keys).trans taken.fits
    have hcount := hcard.trans hkeys
    unfold maxKeys at hcount
    norm_num at hcount
  intro m hm n hn heq
  exact CounterKey.text_injective heq ((hlen m hm).trans (hlen n hn).symm)

theorem plainWalk_of_free (h : Numberable u base ext) {m : Nat} (hm : m ≤ maxCounter) (hle : n ≤ m)
    (hfree : u.lower (candidateText base ext m) ∉ keys) :
    ∃ fuel given, plainWalk u keys stem ext fuel base n = some (.ok given) := by
  obtain ⟨k, rfl⟩ := Nat.exists_eq_add_of_le hle
  induction k generalizing n with
  | zero => exact ⟨1, _, (plainWalk_succ h hm).trans (if_neg hfree)⟩
  | succ k ih =>
    by_cases htaken : u.lower (candidateText base ext n) ∈ keys
    · have hnext : nextCounter n = some (n + 1) := if_pos (by omega)
      obtain ⟨fuel, given, hrest⟩ := @ih (n + 1) (by omega) (by omega)
        (by rwa [show n + 1 + k = n + (k + 1) by omega])
      exact ⟨fuel + 1, given, by rw [plainWalk_succ h (by omega), if_pos htaken, hnext]; exact hrest⟩
    · exact ⟨1, _, by rw [plainWalk_succ h (by omega), if_neg htaken]⟩

/-- Every walk ends: one that runs out of counters starts the whole stem over, which has
a free candidate. -/
theorem plainWalk_ends (taken : TakenNames) (hstem : Numberable u stem ext)
    (h : Numberable u base ext) (hn : n ≤ maxCounter) :
    ∃ fuel given, plainWalk u taken.keys stem ext fuel base n = some (.ok given) := by
  obtain ⟨k, hk⟩ := Nat.exists_eq_add_of_le hn
  induction k generalizing n with
  | zero =>
    by_cases htaken : u.lower (candidateText base ext n) ∈ taken.keys
    · have hnext : nextCounter n = none := if_neg (by omega)
      obtain ⟨m, hlo, hhi, hfree⟩ := exists_free (u := u) taken stem ext
      obtain ⟨fuel, given, hrest⟩ := @plainWalk_of_free u taken.keys stem stem ext 1 hstem m hhi hlo hfree
      exact ⟨fuel + 1, given, by rw [plainWalk_succ h hn, if_pos htaken, hnext]; exact hrest⟩
    · exact ⟨1, _, by rw [plainWalk_succ h hn, if_neg htaken]⟩
  | succ k ih =>
    by_cases htaken : u.lower (candidateText base ext n) ∈ taken.keys
    · have hnext : nextCounter n = some (n + 1) := if_pos (by omega)
      obtain ⟨fuel, given, hrest⟩ := @ih (n + 1) (by omega) (by omega)
      exact ⟨fuel + 1, given, by rw [plainWalk_succ h hn, if_pos htaken, hnext]; exact hrest⟩
    · exact ⟨1, _, by rw [plainWalk_succ h hn, if_neg htaken]⟩

theorem plainWalk_given (hstem : Numberable u stem ext) (h : Numberable u base ext)
    (hn : n ≤ maxCounter) {given : ValidatedName} (hwalk : plainWalk u keys stem ext fuel base n = some (.ok given)) :
    Validated u given ∧ u.lower given.text ∉ keys := by
  induction fuel generalizing base n with
  | zero =>
    cases hwalk
  | succ fuel ih =>
    rw [plainWalk_succ h hn] at hwalk
    split at hwalk
    · cases hnext : nextCounter n with
      | some next =>
        rw [hnext] at hwalk
        obtain ⟨rfl, hlt⟩ := nextCounter_eq_some hnext
        exact ih h hlt hwalk
      | none =>
        rw [hnext] at hwalk
        exact ih hstem (by decide) hwalk
    rename_i hfree
    cases hwalk
    obtain ⟨hkept, hfits⟩ := h.keptParts hn
    exact ⟨⟨_, hkept.parseName hfits⟩, hfree⟩

end Plain

/-! ## The walk over runs -/

/-- How an allocation of a name ends: with the name, its key taken besides and the runs
right again, or with a set that cannot grow any further. -/
def Allocation.Takes (u : Unicode) (taken : TakenNames) (given : ValidatedName) : Allocation → Prop
  | .named name next =>
    name = given ∧ next.keys = u.lower given.text :: taken.keys ∧ RunsOk next
  | .refused _ _ => False
  | .aborted => taken.keys.length = maxKeys

/-- What holds of a walk: the counters since its key last changed were seen taken under
it, and unless the counter started over they lie before the one it is at. -/
structure WalkOk (u : Unicode) (ext : Name) (taken : TakenNames) (walk : Walk) : Prop where
  numberable : Numberable u walk.base ext
  le : walk.n ≤ maxCounter
  seen : ∀ key, walk.walked = some key → ∀ m, walk.since ≤ m → m < walk.n →
    key.text m ∈ taken.keys ∧ utf8Len (counterSuffix m) = key.2.2
  since_le : ∀ key, walk.walked = some key → utf8Len (counterSuffix walk.n) = key.2.2 →
    walk.since ≤ walk.n

section Walk

variable {u : Unicode} {taken : TakenNames} {walk : Walk} {stem ext : Name}

theorem WalkOk.turn (hruns : RunsOk taken) (h : WalkOk u ext taken walk)
    (key : CounterKey) (hkey : utf8Len (counterSuffix walk.n) = key.2.2) :
    RunsOk (taken.turn walk (some key)).1 ∧ (taken.turn walk (some key)).1.keys = taken.keys ∧
      (taken.turn walk (some key)).2.base = walk.base ∧
      (taken.turn walk (some key)).2.n = walk.n ∧
      (taken.turn walk (some key)).2.walked = some key ∧
      (taken.turn walk (some key)).2.since ≤ walk.n ∧
      ∀ m, (taken.turn walk (some key)).2.since ≤ m → m < walk.n →
        key.text m ∈ taken.keys ∧ utf8Len (counterSuffix m) = key.2.2 := by
  unfold TakenNames.turn
  split
  · rename_i hsame
    exact ⟨hruns, rfl, rfl, rfl, hsame.symm, h.since_le key hsame.symm hkey, h.seen key hsame.symm⟩
  refine ⟨?_, ?_, rfl, rfl, rfl, le_rfl, fun m hlo hhi => by dsimp only at hlo; omega⟩
  · cases hwalked : walk.walked with
    | none => exact hruns
    | some walked =>
      dsimp only
      split
      · rename_i hlt
        exact hruns.record hlt h.le (h.seen walked hwalked)
      · exact hruns
  cases hwalked : walk.walked with
  | none => rfl
  | some walked =>
    dsimp only
    split <;> rfl

theorem allocateFrom_succ_of_free {key : CounterKey} {candidate : ValidatedName} {turned : TakenNames × Walk}
    (hcandidate : numberedCandidate u walk.base walk.n ext = .ok (candidate, some key))
    (hturned : taken.turn walk (some key) = turned) (hn : turned.2.n = walk.n)
    (hskip : turned.1.skipTo (some key) walk.n = none) (more : Nat) :
    allocateFrom u stem ext (more + 1) taken walk =
      match turned.1.insert u candidate.text with
      | none => some .aborted
      | some (true, next) =>
        match nextCounter walk.n with
        | some last => some (.named candidate (next.record key turned.2.since last))
        | none => some (.named candidate next)
      | some (false, _) => allocateFrom u stem ext more turned.1 (nextWalk stem turned.2) := by
  rw [allocateFrom, hcandidate]
  dsimp only
  rw [hturned, hn, hskip]
  cases turned.1.insert u candidate.text with
  | none => rfl
  | some result =>
    obtain ⟨free, next⟩ := result
    cases free with
    | false => rfl
    | true => cases nextCounter walk.n <;> rfl

theorem allocateFrom_eq_plain {fuel : Nat} {given : ValidatedName} (hstem : Numberable u stem ext)
    (hruns : RunsOk taken) (h : WalkOk u ext taken walk)
    (hwalk : plainWalk u taken.keys stem ext fuel walk.base walk.n = some (.ok given)) :
    ∃ out : Allocation, out.Takes u taken given ∧
      ∃ fuel₀, ∀ more ≥ fuel₀, allocateFrom u stem ext more taken walk = some out := by
  induction fuel using Nat.strong_induction_on generalizing taken walk with
  | _ fuel ih =>
  cases fuel with
  | zero =>
    cases hwalk
  | succ fuel =>
    have hcandidate := h.numberable.numberedCandidate h.le
    obtain ⟨hruns', hkeys, hbase, hn, hwalked, hsince, hseen⟩ := h.turn hruns
      (counterKey u walk.base ext (utf8Len (counterSuffix walk.n))) rfl
    have hstep := hwalk
    rw [plainWalk_succ h.numberable h.le] at hstep
    -- one more round does what follows the candidate
    have hround : ∀ {out : Allocation} {rest : Nat → Option Allocation},
        (∀ more, allocateFrom u stem ext (more + 1) taken walk = rest more) →
        (∃ fuel₀, ∀ more ≥ fuel₀, rest more = some out) →
        ∃ fuel₀, ∀ more ≥ fuel₀, allocateFrom u stem ext more taken walk = some out := by
      rintro out rest hone ⟨fuel₀, hrest⟩
      refine ⟨fuel₀ + 1, fun more hmore => ?_⟩
      obtain ⟨less, rfl⟩ := Nat.exists_eq_add_of_le hmore
      rw [show fuel₀ + 1 + less = fuel₀ + less + 1 by omega, hone]
      exact hrest _ (by omega)
    generalize hturned : taken.turn walk (some (counterKey u walk.base ext
      (utf8Len (counterSuffix walk.n)))) = turned at hruns' hkeys hbase hn hwalked hsince hseen
    generalize hkey : counterKey u walk.base ext (utf8Len (counterSuffix walk.n)) = key at *
    have hlen : utf8Len (counterSuffix walk.n) = key.2.2 := by rw [← hkey]; rfl
    have hwalking : ∀ {k : CounterKey}, turned.2.walked = some k → k = key := by
      intro k hk
      rw [hwalked] at hk
      exact (Option.some.inj hk).symm
    have htakes : ∀ {out : Allocation}, out.Takes u turned.1 given → out.Takes u taken given := by
      intro out hout
      unfold Allocation.Takes at hout ⊢
      rwa [hkeys] at hout
    by_cases htaken : u.lower (candidateText walk.base ext walk.n) ∈ taken.keys
    · rw [if_pos htaken] at hstep
      cases hskip : turned.1.skipTo (some key) walk.n with
      | some last =>
        -- the jump passes taken candidates of this base
        obtain ⟨hlt, hlast, hall⟩ := hruns'.skipTo hskip
        rw [hkeys] at hall
        have hpassed : ∀ m, walk.n ≤ m → m < last →
            u.lower (candidateText walk.base ext m) ∈ taken.keys := by
          intro m hlo hhi
          obtain ⟨hin, hlen'⟩ := hall m hlo hhi
          rw [lower_candidateText, hlen', ← hlen, hkey]
          exact hin
        obtain ⟨less, hless, hrest⟩ :=
          plainWalk_skip h.numberable hlast hlt.le hpassed hwalk
        have hok : WalkOk u ext turned.1 { turned.2 with n := last } := by
          refine ⟨hbase ▸ h.numberable, hlast, fun k hk m hlo hhi => ?_, fun k hk _ => ?_⟩
          · rw [hwalking hk, hkeys]
            by_cases hm : m < walk.n
            · exact hseen m hlo hm
            · exact hall m (Nat.le_of_not_lt hm) hhi
          · exact hsince.trans hlt.le
        obtain ⟨out, hout, hfuel⟩ := ih less (by omega) hruns' hok (by rw [hkeys]; rwa [← hbase] at hrest)
        refine ⟨out, htakes hout, hround (fun more => ?_) hfuel⟩
        rw [allocateFrom, hcandidate]
        dsimp only
        rw [hturned, hn, hskip]
      | none =>
        have hsame : turned.1.insert u (candidateText walk.base ext walk.n) =
            some (false, turned.1) := insertKey_spec.1 (hkeys ▸ htaken)
        have hok : WalkOk u ext turned.1 (nextWalk stem turned.2) := by
          unfold TakenNames.nextWalk
          rw [hn]
          cases hnext : nextCounter walk.n with
          | some next =>
            obtain ⟨rfl, hlt⟩ := nextCounter_eq_some hnext
            refine ⟨hbase ▸ h.numberable, hlt, fun k hk m hlo hhi => ?_, fun k hk _ => ?_⟩
            · rw [hwalking hk, hkeys]
              by_cases hm : m < walk.n
              · exact hseen m hlo hm
              have heq : m = walk.n := by
                dsimp only at hhi
                omega
              subst heq
              rw [lower_candidateText, hkey] at htaken
              exact ⟨htaken, hlen⟩
            dsimp only
            omega
          | none =>
            have hmax : walk.n = maxCounter := by
              have hnot : ¬ walk.n < maxCounter := fun hlt => by
                rw [nextCounter, if_pos hlt] at hnext
                cases hnext
              have hle := h.le
              omega
            refine ⟨hstem, (by decide : 1 ≤ maxCounter), fun k hk m hlo hhi => ?_, fun k hk hone => ?_⟩
            · rw [hwalking hk, hkeys]
              have hpos : 1 ≤ maxCounter := by decide
              exact hseen m hlo (by dsimp only at hhi; omega)
            -- the longest counter is no counter of one digit
            have hdigits : utf8Len (counterSuffix 1) ≠ utf8Len (counterSuffix maxCounter) := by
              decide
            rw [hwalking hk, ← hlen, hmax] at hone
            exact absurd hone hdigits
        have hrest : plainWalk u turned.1.keys stem ext fuel
            (nextWalk stem turned.2).base (nextWalk stem turned.2).n =
            some (.ok given) := by
          rw [hkeys]
          unfold TakenNames.nextWalk
          rw [hn]
          cases hnext : nextCounter walk.n with
          | some next =>
            rw [hnext] at hstep
            rwa [hbase]
          | none =>
            rw [hnext] at hstep
            exact hstep
        obtain ⟨out, hout, hfuel⟩ := ih fuel (by omega) hruns' hok hrest
        refine ⟨out, htakes hout, hround (fun more => ?_) hfuel⟩
        rw [allocateFrom, hcandidate]
        dsimp only
        rw [hturned, hn, hskip]
        rw [hsame]
    -- the candidate is free, and no run covers it
    rw [if_neg htaken] at hstep
    cases hstep
    have hskip : turned.1.skipTo (some key) walk.n = none := by
      refine hruns'.skipTo_of_free ?_
      rwa [hkeys, ← hkey, ← lower_candidateText]
    have hone := @allocateFrom_succ_of_free u taken walk stem ext _ _ _ hcandidate hturned hn hskip
    rcases insertKey_spec.2 (hkeys ▸ htaken) with ⟨hnone, hfull⟩ | ⟨next, hsome, hnext, hsameRuns⟩
    · rw [hkeys] at hfull
      refine ⟨.aborted, hfull, hround hone ⟨0, fun more _ => ?_⟩⟩
      unfold TakenNames.insert
      rw [hnone]
    have hnextOk : RunsOk next := hruns'.mono hsameRuns fun name hname =>
      hnext ▸ mem_cons_of_mem _ hname
    have hinsert : turned.1.insert u (candidateText walk.base ext walk.n) = some (true, next) :=
      hsome
    cases hcounter : nextCounter walk.n with
    | none =>
      refine ⟨.named ⟨candidateText walk.base ext walk.n⟩ next,
        ⟨rfl, by rw [hnext, hkeys], hnextOk⟩, hround hone ⟨0, fun more _ => ?_⟩⟩
      rw [hinsert, hcounter]
    | some last =>
      obtain ⟨rfl, hlt⟩ := nextCounter_eq_some hcounter
      refine ⟨.named ⟨candidateText walk.base ext walk.n⟩
        (next.record key turned.2.since (walk.n + 1)),
        ⟨rfl, by rw [← hkeys]; exact hnext, hnextOk.record (by omega) hlt ?_⟩,
        hround hone ⟨0, fun more _ => ?_⟩⟩
      · intro m hlo hhi
        rw [hnext]
        by_cases hm : m < walk.n
        · obtain ⟨hin, hlen'⟩ := hseen m hlo hm
          exact ⟨mem_cons_of_mem _ (hkeys ▸ hin), hlen'⟩
        have heq : m = walk.n := by omega
        subst heq
        rw [lower_candidateText, hkey]
        exact ⟨mem_cons_self, hlen⟩
      · rw [hinsert, hcounter]

theorem allocateFrom_mono {fuel more : Nat} {out : Allocation} (hle : fuel ≤ more)
    (h : allocateFrom u stem ext fuel taken walk = some out) :
    allocateFrom u stem ext more taken walk = some out := by
  induction fuel generalizing more taken walk with
  | zero => cases h
  | succ fuel ih =>
    obtain ⟨more, rfl⟩ : ∃ less, more = less + 1 := ⟨more - 1, by omega⟩
    have hle : fuel ≤ more := by omega
    rw [allocateFrom] at h ⊢
    split at h
    · exact h
    dsimp only at h ⊢
    split at h
    · exact ih hle h
    split at h
    · exact h
    · exact h
    · exact ih hle h

end Walk

/-! ## Every allocation -/

section Allocate

variable {u : Unicode} {taken : TakenNames} {name : ValidatedName} {shape : NameShape}

theorem RunsOk.allocate (hruns : RunsOk taken) (hname : Validated u name) (hshape : shape.Fits name.text) :
    ∃ given, (∃ fuel, plainName u taken.keys fuel name shape = some (.ok given)) ∧
      Validated u given ∧ u.lower given.text ∉ taken.keys ∧
      ∃ out : Allocation, out.Takes u taken given ∧
        ∃ fuel₀, ∀ fuel ≥ fuel₀, taken.allocate u fuel name shape = some out := by
  by_cases htaken : u.lower name.text ∈ taken.keys
  · have hstem := hname.numberable hshape
    obtain ⟨hstart, hle⟩ := hstem.startOf
    obtain ⟨fuel, given, hwalk⟩ := plainWalk_ends taken hstem hstart hle
    obtain ⟨hgiven, hfree⟩ := plainWalk_given hstem hstart hle hwalk
    have hok : WalkOk u (splitExtension name.text shape).2 taken
        ⟨(startOf (splitExtension name.text shape).1).1, (startOf (splitExtension name.text shape).1).2,
          (startOf (splitExtension name.text shape).1).2, none⟩ :=
      ⟨hstart, hle, (fun _ h => by cases h), (fun _ h => by cases h)⟩
    obtain ⟨out, hout, fuel₀, hrun⟩ := allocateFrom_eq_plain hstem hruns hok hwalk
    refine ⟨given, ⟨fuel, ?_⟩, hgiven, hfree, out, hout, fuel₀, fun more hmore => ?_⟩
    · unfold plainName
      rw [if_pos htaken]
      exact hwalk
    unfold TakenNames.allocate TakenNames.insert
    rw [insertKey_spec.1 htaken]
    exact hrun more hmore
  refine ⟨name, ⟨0, if_neg htaken⟩, hname, htaken, ?_⟩
  rcases insertKey_spec.2 htaken with ⟨hnone, hfull⟩ | ⟨next, hsome, hkeys, hsame⟩
  · refine ⟨.aborted, hfull, 0, fun fuel _ => ?_⟩
    unfold TakenNames.allocate TakenNames.insert
    rw [hnone]
  refine ⟨.named name next, ⟨rfl, hkeys, hruns.mono hsame fun key hkey =>
    hkeys ▸ mem_cons_of_mem _ hkey⟩, 0, fun fuel _ => ?_⟩
  unfold TakenNames.allocate TakenNames.insert
  rw [hsome]

theorem RunsOk.takes (hruns : RunsOk taken) (hname : Validated u name)
    (hshape : shape.Fits name.text) {fuel : Nat} {out : Allocation}
    (h : taken.allocate u fuel name shape = some out) : ∃ given, out.Takes u taken given := by
  obtain ⟨given, -, -, -, out', hout, fuel₀, hrun⟩ := hruns.allocate hname hshape
  have hsame : taken.allocate u (max fuel fuel₀) name shape = some out := by
    unfold TakenNames.allocate at h ⊢
    split
    · rename_i hinsert
      rwa [hinsert] at h
    · rename_i hinsert
      rwa [hinsert] at h
    rename_i hinsert
    rw [hinsert] at h
    exact allocateFrom_mono (le_max_left _ _) h
  rw [hrun _ (le_max_right _ _)] at hsame
  exact ⟨given, (Option.some.inj hsame) ▸ hout⟩

theorem Reached.runsOk (h : Reached u taken) : RunsOk taken := by
  induction h with
  | new hnew => exact (new_spec hnew).1
  | insert _ hinsert ih => exact ih.insertKey hinsert
  | allocate _ hname hshape hrun ih =>
    obtain ⟨given, -, -, hok⟩ := ih.takes hname hshape hrun
    exact hok
  | refuse _ hname hshape hrun ih =>
    obtain ⟨given, hnone⟩ := ih.takes hname hshape hrun
    cases hnone

end Allocate

/-- Every set reached gives each name what the plain walk over counters gives it: a valid
name whose key was free, which alone is taken besides, in rounds enough. Its runs are
apart and cover counters alone whose candidates are taken, whichever name's they are. -/
theorem allocate_eq_plain {u : Unicode} {taken : TakenNames} (h : Reached u taken) :
    (∀ name shape, Validated u name → shape.Fits name.text →
      ∃ given, (∃ fuel, plainName u taken.keys fuel name shape = some (.ok given)) ∧
        Validated u given ∧ utf8Len given.text ≤ maxBytes ∧ u.lower given.text ∉ taken.keys ∧
        ∃ out : Allocation, out.Takes u taken given ∧
          ∃ fuel₀, ∀ fuel ≥ fuel₀, taken.allocate u fuel name shape = some out) ∧
    (∀ key, (taken.takenRuns key).Apart) ∧
    ∀ key n, (taken.takenRuns key).Covers n → ∀ name shape, Validated u name →
      shape.Fits name.text → ∀ base, base = (splitExtension name.text shape).1 ∨
        base = (startOf (splitExtension name.text shape).1).1 → ∀ candidate,
      numberedCandidate u base n (splitExtension name.text shape).2 = .ok (candidate, some key) →
      u.lower candidate.text ∈ taken.keys := by
  have hruns := h.runsOk
  refine ⟨fun name shape hname hshape => ?_, hruns.apart, ?_⟩
  · obtain ⟨given, hplain, hgiven, hfree, hout⟩ := hruns.allocate hname hshape
    exact ⟨given, hplain, hgiven, hgiven.spec.2.2.1, hfree, hout⟩
  intro key n hcovers name shape hname hshape base hbase candidate hcandidate
  obtain ⟨hin, hlen, hlt⟩ := hruns.covered key n hcovers
  have hstem := hname.numberable hshape
  have hnumberable : Numberable u base (splitExtension name.text shape).2 := by
    rcases hbase with rfl | rfl
    · exact hstem
    · exact hstem.startOf.1
  rw [hnumberable.numberedCandidate hlt.le] at hcandidate
  cases hcandidate
  rw [lower_candidateText]
  exact hin

/-! ## A letter that composes in lower case alone -/

/-- Composition of the letter that has a composed form with a caron in lower case and
none in upper case. -/
def composeCaron : Name → Name
  | c :: d :: rest =>
    if c = 'j' ∧ d = '\u030c' then '\u01f0' :: composeCaron rest else c :: composeCaron (d :: rest)
  | name => name

def caronComposed : Name → Bool
  | c :: d :: rest => !decide (c = 'j' ∧ d = '\u030c') && caronComposed (d :: rest)
  | _ => true

theorem caronComposed_cons (c : Char) (rest : Name) :
    caronComposed (c :: rest) ↔
      ¬ (c = 'j' ∧ rest.head? = some '\u030c') ∧ caronComposed rest := by
  cases rest with
  | nil => simp [caronComposed]
  | cons d rest =>
    simp only [caronComposed, Bool.and_eq_true, Bool.not_eq_true', decide_eq_false_iff_not,
      head?_cons, Option.some.injEq]

theorem head_composeCaron (c : Char) (rest : Name) :
    (composeCaron (c :: rest)).head? = some c ∨ (composeCaron (c :: rest)).head? = some '\u01f0' := by
  cases rest with
  | nil => exact Or.inl rfl
  | cons d rest =>
    unfold composeCaron
    split
    · exact Or.inr rfl
    · exact Or.inl rfl

theorem composeCaron_of_composed {name : Name} (h : caronComposed name) :
    composeCaron name = name := by
  fun_induction composeCaron name with
  | case1 c d rest hpair =>
    rw [caronComposed_cons] at h
    exact absurd ⟨hpair.1, congrArg some hpair.2⟩ h.1
  | case2 c d rest hpair ih => rw [ih ((caronComposed_cons c _).mp h).2]
  | case3 name hshort => rfl

theorem composed_composeCaron (name : Name) : caronComposed (composeCaron name) := by
  fun_induction composeCaron name with
  | case1 c d rest hpair ih =>
    rw [caronComposed_cons]
    exact ⟨fun h => absurd h.1 (by decide), ih⟩
  | case2 c d rest hpair ih =>
    rw [caronComposed_cons]
    refine ⟨fun h => hpair ⟨h.1, ?_⟩, ih⟩
    rcases head_composeCaron d rest with hhead | hhead
    · rw [hhead] at h
      exact Option.some.inj h.2
    rw [hhead] at h
    exact absurd (Option.some.inj h.2) (by decide)
  | case3 name hshort =>
    cases name with
    | nil => rfl
    | cons c rest =>
      cases rest with
      | nil => rfl
      | cons d rest => exact absurd rfl (hshort c d rest)

theorem composed_of_append {a b : Name} (h : caronComposed (a ++ b)) :
    caronComposed a ∧ caronComposed b := by
  induction a with
  | nil => exact ⟨rfl, h⟩
  | cons c a ih =>
    rw [cons_append, caronComposed_cons] at h
    obtain ⟨ha, hb⟩ := ih h.2
    refine ⟨(caronComposed_cons c a).mpr ⟨fun hpair => h.1 ⟨hpair.1, ?_⟩, ha⟩, hb⟩
    cases a with
    | nil => cases hpair.2
    | cons d a => exact hpair.2

theorem composed_append {a : Name} {c : Char} {b : Name} (hc : c.toNat < 128)
    (ha : caronComposed a) (hb : caronComposed (c :: b)) :
    caronComposed (a ++ c :: b) := by
  induction a with
  | nil => exact hb
  | cons d a ih =>
    rw [caronComposed_cons] at ha
    rw [cons_append, caronComposed_cons]
    refine ⟨fun hpair => ?_, ih ha.2⟩
    cases a with
    | nil =>
      have heq : c = '\u030c' := Option.some.inj hpair.2
      rw [heq] at hc
      exact absurd hc (by decide)
    | cons e a => exact ha.1 hpair

theorem toLower_counterSuffix (n : Nat) : (counterSuffix n).map Char.toLower = counterSuffix n := by
  have hdigits : (Nat.toDigits 10 n).map Char.toLower = Nat.toDigits 10 n := by
    refine (map_congr_left fun c hc => ?_).trans (map_id _)
    have hdigit := Nat.isDigit_of_mem_toDigits (by decide) (by decide) hc
    simp only [Char.isDigit, Bool.and_eq_true, decide_eq_true_eq] at hdigit
    unfold Char.toLower
    rw [dif_neg]
    · rfl
    rintro ⟨hlo, -⟩
    have hupper := UInt32.le_iff_toNat_le.mp hlo
    have hnine := UInt32.le_iff_toNat_le.mp hdigit.2
    simp at hupper hnine
    omega
  unfold counterSuffix
  rw [map_cons, map_cons, map_append, hdigits]
  rfl

theorem map_toLower_counter (base : Name) (n : Nat) (ext : Name) :
    (base ++ counterSuffix n ++ ext).map Char.toLower =
      base.map Char.toLower ++ counterSuffix n ++ ext.map Char.toLower := by
  rw [map_append, map_append, toLower_counterSuffix]

def caronUnicode : Unicode where
  nfc := composeCaron
  lower name := name.map Char.toLower
  nfc_idempotent name := composeCaron_of_composed (composed_composeCaron name)
  nfc_part a b c h := by
    have hcomposed : caronComposed (a ++ b ++ c) = true := h ▸ composed_composeCaron _
    exact composeCaron_of_composed (composed_of_append (composed_of_append hcomposed).1).2
  nfc_char c _ := rfl
  nfc_join a c b hc ha hb :=
    composeCaron_of_composed (composed_append hc (ha ▸ composed_composeCaron a)
      (hb ▸ composed_composeCaron (c :: b)))
  lower_counter := map_toLower_counter

/-- A name that keeps a caron apart from the letter before its counter. -/
def caronName (letter : Char) : ValidatedName :=
  ⟨letter :: " (9)".toList ++ '\u030c' :: List.replicate 248 'x'⟩

/-- What the letter's second name is given, with the runs its first left, and what the
plain walk gives it. -/
def caronGiven : Option (Option Name × Option Name) :=
  let shape := NameShape.fileWithExtension 250
  match new caronUnicode [(caronName 'J').text] with
  | none => none
  | some taken =>
    match taken.allocate caronUnicode 9 (caronName 'J') shape with
    | some (.named _ next) =>
      let given := match next.allocate caronUnicode 9 (caronName 'j') shape with
        | some (.named given _) => some given.text
        | _ => none
      let plain := match plainName caronUnicode next.keys 9 (caronName 'j') shape with
        | some (.ok given) => some given.text
        | _ => none
      some (given, plain)
    | _ => none

/-- The second name jumps the counter the first took and lands on the next one, though
its own candidate there is free: an extension that does not begin with an ASCII character
composes with the base it is trimmed with, in one of the two cases alone. -/
theorem allocate_passes_free :
    parseName caronUnicode.nfc (caronName 'J').text = .ok (caronName 'J') ∧
      parseName caronUnicode.nfc (caronName 'j').text = .ok (caronName 'j') ∧
      caronGiven = some (some ('\u01f0' :: List.replicate 247 'x' ++ counterSuffix 11),
        some ('\u01f0' :: List.replicate 247 'x' ++ counterSuffix 10)) := by
  refine ⟨?_, ?_, ?_⟩ <;> decide +kernel

def oneTaken : TakenNames where
  keys := ["a.txt".toList]
  takenRuns _ := []
  nodup := by decide
  fits := by decide

theorem allocate_eq_plain_one :
    ∃ given, (∃ fuel, plainName caronUnicode oneTaken.keys fuel ⟨"A.txt".toList⟩ .file =
        some (.ok given)) ∧
      Validated caronUnicode given ∧ utf8Len given.text ≤ maxBytes ∧
      caronUnicode.lower given.text ∉ oneTaken.keys ∧
      ∃ out : Allocation, out.Takes caronUnicode oneTaken given ∧
        ∃ fuel₀, ∀ fuel ≥ fuel₀,
          oneTaken.allocate caronUnicode fuel ⟨"A.txt".toList⟩ .file = some out := by
  have hnew : new caronUnicode ["a.txt".toList] = some oneTaken := by rfl
  have hname : Validated caronUnicode ⟨"A.txt".toList⟩ := ⟨"A.txt".toList, by decide +kernel⟩
  exact (allocate_eq_plain (.new hnew)).1 ⟨"A.txt".toList⟩ .file hname (fits_file _)

end SyncEngine
