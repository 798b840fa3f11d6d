import SyncEngine.Zip.Window

/-! # Runs of an archive's writing

However the first chunks, the listing and the writes come along, the entries are written in
the order they are listed in, and the window stays within its budget.
-/

namespace SyncEngine.Zip

open Collections Writing List

variable {Error : Type} {items : List (Except Error Entry)} {ahead : List Entry} {budget : Nat}
  {look : Lookahead Error}

theorem Steady.next (h : Steady items ahead budget true look) (listed : Nat) :
    match look.next listed with
    | (.pending, after) =>
      Steady items ahead budget true after ∧ (after.waiting ≠ none → after.fetching ≠ [])
    | (.entry fetched, after) =>
      Steady items (ahead ++ [fetched.entry]) budget false after ∧
        fetched.reserved ≤ (look.pollFill true listed).reserved
    | (.failed _, _) => True
    | (.ended, after) =>
      Steady items ahead budget true after ∧ after.window = [] ∧ items = ahead.map .ok := by
  have hfill := h.pollFill listed
  unfold Lookahead.next
  dsimp only
  generalize look.pollFill true listed = filled at hfill ⊢
  cases hfailure : filled.failure with
  | some error => trivial
  | none =>
    obtain ⟨hsteady, hwaits⟩ := hfill.resolve_left fun hfailed => hfailed hfailure
    cases hfetched : filled.fetched with
    | cons fetched rest =>
      have hlisting := hsteady.listing
      have hcosts := hsteady.costs
      have hreserved := hsteady.reserved
      have hcount := hsteady.count
      unfold Lookahead.window at hlisting hcosts
      unfold Lookahead.reservations at hcosts hreserved
      unfold Lookahead.len at hcount
      rw [hfetched] at hlisting hcosts hreserved hcount
      rw [map_cons, cons_append, sum_cons] at hreserved
      refine ⟨⟨?_, ?_, ?_, ?_, hsteady.bounded, Or.inl ?_, rfl⟩, ?_⟩
      · rw [hlisting]
        rw [map_cons, cons_append, append_assoc ahead [fetched.entry]]
        rfl
      · exact (List.cons.inj hcosts).2
      · rw [hreserved, Nat.add_sub_cancel_left]
        rfl
      · rw [length_cons] at hcount
        exact Nat.le_of_succ_le hcount
      · rcases hsteady.within with hle | ⟨-, hsingle⟩
        · exact le_trans (Nat.sub_le _ _) hle
        unfold Lookahead.len at hsingle
        rw [hfetched, length_cons] at hsingle
        have hfetching : filled.fetching = [] := eq_nil_of_length_eq_zero (by omega)
        have hrest : rest = [] := eq_nil_of_length_eq_zero (by omega)
        rw [hfetching, hrest] at hreserved
        rw [hreserved, Nat.add_sub_cancel_left]
        exact Nat.zero_le _
      rw [hreserved]
      exact Nat.le_add_right _ _
    | nil =>
      by_cases hended : (filled.entries.isNone && filled.waiting.isNone && filled.fetching.isEmpty)
      · rw [if_pos hended]
        rw [Bool.and_eq_true, Bool.and_eq_true, Option.isNone_iff_eq_none, Option.isNone_iff_eq_none,
          List.isEmpty_iff] at hended
        obtain ⟨⟨hentries, hwaiting⟩, hfetching⟩ := hended
        have hempty : filled.window = [] := by
          unfold Lookahead.window
          rw [hfetched, hfetching]
          rfl
        refine ⟨hsteady, hempty, ?_⟩
        rw [hsteady.listing, hempty, hwaiting, hentries, append_nil, Option.toList_none,
          append_nil, Option.getD_none, append_nil]
      rw [if_neg hended]
      refine ⟨hsteady, fun hsome hfetching => hwaits rfl hsome ?_⟩
      unfold Lookahead.len
      rw [hfetching, hfetched]
      rfl

theorem Steady.alongside (h : Steady items ahead budget false look) (listed : Nat) (work : Option (Except Error Unit)) :
    match look.alongside listed work with
    | (some (.error _), _) => True
    | (_, after) => Steady items ahead budget false after := by
  have hfill := h.pollFill listed
  unfold Lookahead.alongside
  dsimp only
  generalize look.pollFill false listed = filled at hfill ⊢
  cases hfailure : filled.failure with
  | some error => trivial
  | none =>
    have hsteady := (hfill.resolve_left fun hfailed => hfailed hfailure).1
    match work with
    | none => exact hsteady
    | some (.ok _) => exact hsteady
    | some (.error _) => trivial

variable {place : Nat} {idle : Bool} {writing after : Writing Error}

theorem map_set_same {α β : Type} {f : α → β} {l : List α} {old new : α}
    (hplace : l[place]? = some old) (hsame : f new = f old) : (l.set place new).map f = l.map f := by
  obtain ⟨hlt, rfl⟩ := List.getElem?_eq_some_iff.mp hplace
  rw [map_set, hsame, ← map_set, set_getElem_self]

theorem Steady.arrive (h : Steady items ahead budget idle look)
    {old new : Fetching Error} (hplace : look.fetching[place]? = some old) (hentry : new.entry = old.entry)
    (hreserved : new.reserved = old.reserved) :
    Steady items ahead budget idle { look with fetching := look.fetching.set place new } := by
  have hwindow : Lookahead.window { look with fetching := look.fetching.set place new } = look.window := by
    unfold Lookahead.window
    rw [map_set_same hplace hentry]
  have hreservations : Lookahead.reservations { look with fetching := look.fetching.set place new } =
      look.reservations := by
    unfold Lookahead.reservations
    rw [map_set_same hplace hreserved]
  have hlen : Lookahead.len { look with fetching := look.fetching.set place new } = look.len := by
    rw [← Lookahead.length_window, hwindow, Lookahead.length_window]
  refine ⟨?_, ?_, ?_, ?_, h.bounded, ?_, h.whole⟩
  · rw [hwindow]
    exact h.listing
  · rw [hwindow, hreservations]
    exact h.costs
  · rw [hreservations]
    exact h.reserved
  · rw [hlen]
    exact h.count
  rw [hlen]
  exact h.within

/-! ## Runs -/

def Phase.current : Phase Error → List Entry
  | .writing fetched => [fetched.entry]
  | _ => []

/-- What holds between the steps of a writing. -/
def Sound (items : List (Except Error Entry)) (budget : Nat) (writing : Writing Error) : Prop :=
  match writing.phase with
  | .choosing => Steady items writing.written budget true writing.lookahead
  | .writing fetched => Steady items (writing.written ++ [fetched.entry]) budget false writing.lookahead
  | .finished =>
    Steady items writing.written budget true writing.lookahead ∧ writing.lookahead.window = [] ∧
      items = writing.written.map .ok
  | .failed _ => writing.written.map .ok <+: items

theorem Steady.written (h : Steady items ahead budget idle look) {written more : List Entry}
    (hahead : ahead = written ++ more) : written.map .ok <+: items := by
  rw [h.listing, hahead, append_assoc, append_assoc, map_append, append_assoc]
  exact prefix_append _ _

theorem Sound.arrive (h : Sound items budget writing)
    {download : Except Error (Option Transfer.Chunk)} (hstep : writing.arrive place download = some after) :
    Sound items budget after := by
  unfold Writing.arrive at hstep
  split at hstep
  · rename_i entry reserved hplace
    cases hstep
    have harrive := fun {idle : Bool} {ahead : List Entry}
      (hsteady : Steady items ahead budget idle writing.lookahead) =>
        hsteady.arrive hplace (@rfl _ (Fetching.done ⟨entry, reserved, none⟩ download).entry) rfl
    unfold Sound at h ⊢
    cases hphase : writing.phase with
    | choosing | writing fetched =>
      rw [hphase] at h
      exact harrive h
    | finished =>
      rw [hphase] at h
      have hempty : writing.lookahead.fetching = [] := by
        have hwindow := h.2.1
        exact map_eq_nil_iff.mp (append_eq_nil_iff.mp hwindow).2
      rw [hempty] at hplace
      cases hplace
    | failed error =>
      rw [hphase] at h
      exact h
  · cases hstep

theorem Sound.poll (h : Sound items budget writing) {listed : Nat}
    {work : Option (Except Error Unit)} (hstep : writing.poll listed work = some after) :
    Sound items budget after := by
  unfold Writing.poll at hstep
  unfold Sound at h
  cases hphase : writing.phase with
  | choosing =>
    rw [hphase] at hstep h
    have hnext := Steady.next h listed
    generalize writing.lookahead.next listed = polled at hstep hnext
    obtain ⟨answer, look⟩ := polled
    cases answer with
    | pending | entry fetched =>
      cases hstep
      exact hnext.1
    | failed error =>
      cases hstep
      exact h.written (append_nil _).symm
    | ended =>
      cases hstep
      exact hnext
  | writing fetched =>
    rw [hphase] at hstep h
    have hwork := Steady.alongside h listed work
    generalize writing.lookahead.alongside listed work = polled at hstep hwork
    obtain ⟨answer, look⟩ := polled
    match answer with
    | none =>
      cases hstep
      exact hwork
    | some (.ok _) =>
      cases hstep
      obtain ⟨hlisting, hcosts, hreserved, hcount, hbounded, hwithin, hwhole⟩ := hwork
      exact ⟨hlisting, hcosts, hreserved, hcount, hbounded,
        hwithin.imp_right fun hidle => absurd hidle.1 Bool.false_ne_true, hwhole⟩
    | some (.error error) =>
      cases hstep
      exact h.written rfl
  | finished | failed error =>
    rw [hphase] at hstep
    cases hstep

theorem sound_of_reaches
    (hreach : (machine budget items).Reaches (fun _ _ => True) writing) :
    Sound items (BudgetSplit.new budget).window writing := by
  refine hreach.invariant ?_ fun s t move h _ hstep => ?_
  · exact ⟨rfl, rfl, rfl, Nat.zero_le _, rfl, Or.inl (Nat.zero_le _), rfl⟩
  cases move with
  | arrive place download => exact h.arrive hstep
  | poll listed work => exact h.poll hstep

theorem Steady.within_window (h : Steady items ahead budget idle look) :
    (ahead ++ look.window ++ look.waiting.toList).map .ok <+: items ∧
      look.reserved = look.reservations.sum ∧ look.len ≤ maxWindowEntries ∧
        (look.reserved ≤ budget ∨
          idle ∧ ∃ entry, look.window = [entry] ∧ budget < firstChunkCost entry) := by
  refine ⟨?_, h.reserved, h.count, ?_⟩
  · rw [h.listing]
    exact prefix_append _ _
  rcases lt_or_ge budget look.reserved with hover | hle
  · obtain ⟨hidle, hsingle⟩ := h.within.resolve_left (not_le.mpr hover)
    rw [← Lookahead.length_window] at hsingle
    obtain ⟨entry, hentry⟩ := length_eq_one_iff.mp hsingle
    refine Or.inr ⟨hidle, entry, hentry, ?_⟩
    rw [h.reserved, h.costs, hentry, map_singleton, sum_singleton] at hover
    exact hover
  · exact Or.inl hle

/-- In every run the entries are written in the order they are listed in, each once, up to the
first failure, and all of them if the run finishes. The window holds what it reserved, at most
thirty-two entries and within its budget, unless it holds one entry that is heavier alone and
nothing is being written. With nothing being written an entry waits for room only while a
first chunk is being fetched, and an entry taken from the window releases what it reserved. -/
theorem window_keeps_order {Error : Type} (budget : Nat) (items : List (Except Error Entry))
    {writing : Writing Error} (hreach : (machine budget items).Reaches (fun _ _ => True) writing) :
    writing.written.map .ok <+: items ∧
      (writing.phase = .finished → items = writing.written.map .ok) ∧
      ((∀ error, writing.phase ≠ .failed error) →
        (writing.written ++ writing.phase.current ++ writing.lookahead.window ++
            writing.lookahead.waiting.toList).map .ok <+: items ∧
          writing.lookahead.reserved = writing.lookahead.reservations.sum ∧
          writing.lookahead.len ≤ maxWindowEntries ∧
          (writing.lookahead.reserved ≤ (BudgetSplit.new budget).window ∨
            writing.phase = .choosing ∧ ∃ entry, writing.lookahead.window = [entry] ∧
              (BudgetSplit.new budget).window < firstChunkCost entry)) ∧
      (writing.phase = .choosing → ∀ listed,
        match writing.lookahead.next listed with
        | (.pending, after) => after.waiting ≠ none → after.fetching ≠ []
        | (.entry fetched, _) => fetched.reserved ≤ (writing.lookahead.pollFill true listed).reserved
        | _ => True) := by
  have hsound := sound_of_reaches hreach
  unfold Sound at hsound
  cases hphase : writing.phase with
  | choosing =>
    rw [hphase] at hsound
    have hsteady : Steady items writing.written _ true writing.lookahead := hsound
    refine ⟨hsteady.written (append_nil _).symm, nofun, fun _ => ?_,
      fun _ listed => ?_⟩
    · obtain ⟨hfront, hreserved, hcount, hwithin⟩ := hsteady.within_window
      refine ⟨?_, hreserved, hcount, hwithin.imp_right fun hover => ⟨rfl, hover.2⟩⟩
      show (writing.written ++ [] ++ _ ++ _).map _ <+: _
      rw [append_nil]
      exact hfront
    have hnext := hsteady.next listed
    generalize writing.lookahead.next listed = polled at hnext
    obtain ⟨answer, after⟩ := polled
    cases answer with
    | pending => exact hnext.2
    | entry fetched => exact hnext.2
    | failed error => trivial
    | ended => trivial
  | writing fetched =>
    rw [hphase] at hsound
    have hsteady : Steady items (writing.written ++ [fetched.entry]) _ false writing.lookahead := hsound
    refine ⟨hsteady.written rfl, nofun, fun _ => ?_, nofun⟩
    obtain ⟨hfront, hreserved, hcount, hwithin⟩ := hsteady.within_window
    exact ⟨hfront, hreserved, hcount,
      hwithin.imp_right fun hidle => absurd hidle.1 Bool.false_ne_true⟩
  | finished =>
    rw [hphase] at hsound
    obtain ⟨hsteady, hempty, hall⟩ := hsound
    refine ⟨hsteady.written (append_nil _).symm, fun _ => hall, fun _ => ?_, nofun⟩
    obtain ⟨hfront, hreserved, hcount, hwithin⟩ := hsteady.within_window
    refine ⟨?_, hreserved, hcount, Or.inl ?_⟩
    · show (writing.written ++ [] ++ _ ++ _).map _ <+: _
      rw [append_nil]
      exact hfront
    rw [hreserved, hsteady.costs, hempty]
    exact Nat.zero_le _
  | failed error =>
    rw [hphase] at hsound
    exact ⟨hsound, nofun, fun hnot => absurd rfl (hnot error), nofun⟩

/-- A directory and a file of three bytes are taken in, and the directory is handed out to be
written once its turn came. -/
theorem window_keeps_order_two :
    let items : List (Except Unit Entry) := [.ok (.dir (some "d")), .ok (.file 1 3 (some "d/f"))]
    let moves : List (Move Unit) := [.poll 2 none, .arrive 0 (.ok none), .poll 0 none]
    ∃ writing, (machine (2 ^ 23) items).run moves (machine (2 ^ 23) items).start = some writing ∧
      writing.phase.current = [.dir (some "d")] ∧ writing.lookahead.reserved = 31 ∧
        writing.written.map .ok <+: items := by
  intro items moves
  have hsome : ((machine (2 ^ 23) items).run moves (machine (2 ^ 23) items).start).map
      (fun writing => (writing.phase.current, writing.lookahead.reserved)) =
        some ([.dir (some "d")], 31) := by
    decide +kernel
  obtain ⟨writing, hrun, hseen⟩ := Option.map_eq_some_iff.mp hsome
  obtain ⟨hcurrent, hreserved⟩ := Prod.mk.inj hseen
  exact ⟨writing, hrun, hcurrent, hreserved,
    (window_keeps_order (2 ^ 23) items (Machine.reaches_of_run .start hrun)).1⟩

end SyncEngine.Zip
