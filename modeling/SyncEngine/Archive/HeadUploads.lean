import SyncEngine.Archive.HeadHash

/-! # What is uploaded of an archive whose head comes last

The chunks written are cut where they are full, the first one is kept back and patched, and
the driver uploads each under its place in the archive.
-/

namespace SyncEngine.Archive

open Collections Compressing List Transfer

/-! ## What is written -/

/-- A sink that took this data: in full chunks, the first kept back and the others sent, and
what is left. -/
structure Sinking (data : List UInt8) (blocks : List (List UInt8)) (head : HeadSink) : Prop where
  whole : data = blocks.flatten ++ head.sink.chunk
  full : ∀ block ∈ blocks, block.length = chunkSize
  short : head.sink.chunk.length < chunkSize
  written : head.sink.written = data.length
  working : head.sink.failed = false
  going : head.sink.port.gone = false
  kept : head.head = blocks.head?
  sent : head.sink.port.sent = blocks.tail.map .data

variable {data start : List UInt8} {blocks : List (List UInt8)} {head : HeadSink}

theorem send_eq {port : WorkerPort} (h : port.gone = false) (event : WorkerEvent) :
    port.send event = .ok { port with sent := port.sent ++ [event] } := by
  unfold WorkerPort.send
  rw [if_neg (Bool.not_eq_true _ ▸ h)]

theorem sinking_new : Sinking [] [] (.new ⟨[], false⟩) where
  whole := rfl
  full _ h := nomatch h
  short := chunkSize_pos
  written := rfl
  working := rfl
  going := rfl
  kept := rfl
  sent := rfl

theorem Sinking.write (h : Sinking data blocks head) (buf : List UInt8) :
    ∃ n blocks after, head.write buf = (.ok n, after) ∧ (0 < buf.length → 0 < n) ∧
      Sinking (data ++ buf.take n) blocks after := by
  have hshort := h.short
  have hlength : (buf.take (min buf.length (chunkSize - head.sink.chunk.length))).length =
      min buf.length (chunkSize - head.sink.chunk.length) := by
    rw [length_take, Nat.min_eq_left (Nat.min_le_left _ _)]
  have hsome : 0 < buf.length → 0 < min buf.length (chunkSize - head.sink.chunk.length) := fun hpos =>
    Nat.lt_min.mpr ⟨hpos, Nat.sub_pos_of_lt hshort⟩
  have hroom : min buf.length (chunkSize - head.sink.chunk.length) ≤ chunkSize - head.sink.chunk.length :=
    Nat.min_le_right _ _
  unfold HeadSink.write ChunkSink.fill
  rw [h.working, if_neg Bool.false_ne_true]
  generalize min buf.length (chunkSize - head.sink.chunk.length) = n at hlength hsome hroom ⊢
  have hwhole : data ++ buf.take n = blocks.flatten ++ (head.sink.chunk ++ buf.take n) := by
    rw [h.whole, append_assoc]
  have hwritten : head.sink.written + n = (data ++ buf.take n).length := by
    rw [length_append, hlength, h.written]
  by_cases hfull : (head.sink.chunk ++ buf.take n).length = chunkSize
  · rw [if_pos hfull]
    have hall : ∀ block ∈ blocks ++ [head.sink.chunk ++ buf.take n], block.length = chunkSize := by
      intro block hmem
      rcases mem_append.mp hmem with hold | hnew
      · exact h.full block hold
      rw [mem_singleton.mp hnew]
      exact hfull
    have hcut : data ++ buf.take n = (blocks ++ [head.sink.chunk ++ buf.take n]).flatten ++ [] := by
      rw [hwhole, flatten_append, flatten_singleton, append_nil]
    have hkept := h.kept
    have hsent := h.sent
    cases hhead : head.head with
    | none =>
      rw [hhead] at hkept
      have hempty : blocks = [] := head?_eq_none_iff.mp hkept.symm
      rw [hempty] at hsent hall hcut
      exact ⟨n, _, _, rfl, hsome, hcut, hall, chunkSize_pos, hwritten, rfl, h.going, rfl, hsent⟩
    | some first =>
      rw [hhead] at hkept
      obtain ⟨rest, hblocks⟩ := head?_eq_some_iff.mp hkept.symm
      unfold ChunkSink.send WorkerPort.send
      dsimp only
      rw [h.going, if_neg Bool.false_ne_true]
      refine ⟨n, _, _, rfl, hsome, hcut, hall, chunkSize_pos, hwritten, rfl, rfl, ?_, ?_⟩
      · rw [hblocks]
        rfl
      rw [hsent, hblocks]
      show _ = (rest ++ [_]).map WorkerEvent.data
      rw [map_append]
      rfl
  rw [if_neg hfull]
  refine ⟨n, blocks, _, rfl, hsome, hwhole, h.full, ?_, hwritten, rfl, h.going, h.kept, h.sent⟩
  have hle : (head.sink.chunk ++ buf.take n).length ≤ chunkSize := by
    rw [length_append, hlength]
    omega
  exact Nat.lt_of_le_of_ne hle hfull

theorem Sinking.writes (h : Sinking data blocks head) (bufs : List (List UInt8)) :
    ∃ more blocks after, HeadSink.writes bufs head = .ok (more, after) ∧
      Sinking (data ++ more) blocks after := by
  induction bufs generalizing data blocks head with
  | nil =>
    refine ⟨[], blocks, head, rfl, ?_⟩
    rw [append_nil]
    exact h
  | cons buf bufs ih =>
    obtain ⟨n, between, middle, hwrite, -, hsinking⟩ := h.write buf
    obtain ⟨more, blocks, after, hwrites, hafter⟩ := ih hsinking
    refine ⟨buf.take n ++ more, blocks, after, ?_, ?_⟩
    · unfold HeadSink.writes
      rw [hwrite]
      dsimp only
      rw [hwrites]
      rfl
    rw [← append_assoc]
    exact hafter

/-- An archive cut in chunks: its first one, and the rest in order. -/
structure CutUp (archive first : List UInt8) (rest : List (List UInt8)) : Prop where
  whole : archive = first ++ rest.flatten
  head : rest ≠ [] → first.length = chunkSize
  full : ∀ chunk ∈ rest.dropLast, chunk.length = chunkSize
  last : ∀ chunk ∈ rest.getLast?, 0 < chunk.length ∧ chunk.length ≤ chunkSize

theorem Sinking.refuses (h : Sinking data blocks head) (hdata : start.length ≤ data.length)
    (hlong : chunkSize < start.length) : head.finishWithHead start = .error .short := by
  have hkept := h.kept
  have hwhole := h.whole
  have hshort := h.short
  unfold HeadSink.finishWithHead
  rw [h.working, if_neg Bool.false_ne_true]
  cases blocks with
  | nil =>
    rw [flatten_nil, nil_append] at hwhole
    rw [hwhole] at hdata
    omega
  | cons first rest =>
    have hfirst : first.length = chunkSize := h.full first mem_cons_self
    rw [hkept]
    dsimp only [head?_cons]
    rw [hfirst, if_pos hlong]

theorem Sinking.finish (h : Sinking data blocks head) (hdata : start.length ≤ data.length)
    (hstart : start.length ≤ chunkSize) :
    ∃ port first rest, head.finishWithHead start = .ok (data.length, port) ∧
      CutUp (start ++ data.drop start.length) first rest ∧
      port.sent = rest.map .data ++ [.head first] := by
  have hkept := h.kept
  have hwhole := h.whole
  have hsent := h.sent
  unfold HeadSink.finishWithHead
  rw [h.working, if_neg Bool.false_ne_true, hkept, h.written]
  cases blocks with
  | nil =>
    rw [flatten_nil, nil_append] at hwhole
    dsimp only [head?_nil]
    rw [← hwhole, if_neg (Nat.not_lt.mpr hdata)]
    refine ⟨{ head.sink.port with
        sent := head.sink.port.sent ++ [.head (start ++ data.drop start.length)] },
      start ++ data.drop start.length, [], ?_, ⟨(append_nil _).symm, fun hne => absurd rfl hne,
        (fun _ hmem => nomatch hmem), fun _ hmem => nomatch hmem⟩, ?_⟩
    · show ((head.sink.port.send _).map _) = _
      rw [send_eq h.going]
      rfl
    dsimp only
    rw [hsent]
    rfl
  | cons first middle =>
    have hfirst : first.length = chunkSize := h.full first mem_cons_self
    have hfits : start.length ≤ first.length := hfirst ▸ hstart
    have hpatched : (start ++ first.drop start.length).length = chunkSize := by
      rw [length_append, length_drop, Nat.add_sub_cancel' hfits, hfirst]
    have harchive : start ++ data.drop start.length =
        (start ++ first.drop start.length) ++ (middle.flatten ++ head.sink.chunk) := by
      rw [hwhole, flatten_cons, append_assoc, drop_append_of_le_length hfits,
        append_assoc]
    have hmiddle : ∀ chunk ∈ middle, chunk.length = chunkSize := fun chunk hmem =>
      h.full chunk (mem_cons_of_mem _ hmem)
    dsimp only [head?_cons]
    rw [if_neg (Nat.not_lt.mpr hfits)]
    by_cases hempty : head.sink.chunk = []
    · refine ⟨{ head.sink.port with
          sent := head.sink.port.sent ++ [.head (start ++ first.drop start.length)] },
        start ++ first.drop start.length, middle, ?_, ⟨?_, fun _ => hpatched,
        fun chunk hmem => hmiddle chunk (dropLast_subset _ hmem), fun chunk hmem => ?_⟩, ?_⟩
      · rw [hempty]
        show ((head.sink.port.send _).map _) = _
        rw [send_eq h.going]
        rfl
      · rw [harchive, hempty, append_nil]
      · rw [hmiddle chunk (mem_of_getLast? hmem)]
        exact ⟨chunkSize_pos, Nat.le_refl _⟩
      dsimp only
      rw [hsent]
      rfl
    refine ⟨{ head.sink.port with
        sent := head.sink.port.sent ++ [.data head.sink.chunk] ++
          [.head (start ++ first.drop start.length)] },
      start ++ first.drop start.length, middle ++ [head.sink.chunk], ?_, ⟨?_, fun _ => hpatched,
      fun chunk hmem => ?_, fun chunk hmem => ?_⟩, ?_⟩
    · have hsome : (some head.sink.chunk).filter (fun last => !last.isEmpty) = some head.sink.chunk := by
        rw [Option.filter_some, if_pos]
        rw [Bool.not_eq_true', isEmpty_eq_false_iff]
        exact hempty
      rw [hsome]
      dsimp only
      rw [send_eq h.going]
      have hgoing : (⟨head.sink.port.sent ++ [.data head.sink.chunk], head.sink.port.gone⟩ : WorkerPort).gone =
          false := h.going
      show ((WorkerPort.send _ _).map _) = _
      rw [send_eq hgoing]
      rfl
    · rw [harchive, flatten_append, flatten_singleton]
    · rw [dropLast_concat] at hmem
      exact hmiddle chunk hmem
    · rw [getLast?_concat] at hmem
      cases hmem
      exact ⟨length_pos_of_ne_nil hempty, Nat.le_of_lt h.short⟩
    dsimp only
    rw [hsent, map_append]
    rfl

/-! ## What is uploaded -/

variable {Cv Hash : Type} {b : Blake3 Cv Hash} {archive first : List UInt8}
  {rest taken remaining : List (List UInt8)} {driver : CompressDriver Cv Hash} {maxBytes : Option Nat}

/-- A driver that uploaded these chunks after the first. -/
structure Taking (b : Blake3 Cv Hash) (maxBytes : Option Nat) (taken : List (List UInt8))
    (driver : CompressDriver Cv Hash) : Prop where
  hash : ∃ hasher, driver.hash = .headLast hasher ∧ Hashing b hasher taken
  written : driver.written = taken.flatten.length
  nextIndex : driver.nextIndex = taken.length + 1
  uploads : driver.uploads = (taken.zipIdx 1).map Prod.swap
  bounded : driver.maxBytes = maxBytes
  going : driver.stopped = none

/-- A driver that uploaded the first chunk after the others. -/
structure Uploaded (b : Blake3 Cv Hash) (first : List UInt8) (rest : List (List UInt8))
    (driver : CompressDriver Cv Hash) : Prop where
  hash : driver.hash = .done (b.hash (first ++ rest.flatten))
  written : driver.written = (first ++ rest.flatten).length
  nextIndex : driver.nextIndex = (first :: rest).length
  uploads : driver.uploads.Perm ((first :: rest).zipIdx.map Prod.swap)
  going : driver.stopped = none

/-- What a driver stopped for: the archive needs more than is free. -/
def OutOfRoom (maxBytes : Option Nat) (archive : List UInt8) (driver : CompressDriver Cv Hash) : Prop :=
  driver.stopped = some .maxStorageReached ∧ ∃ max, maxBytes = some max ∧ max < archive.length

/-- What holds between the steps of a driver. -/
def Compressed (b : Blake3 Cv Hash) (maxBytes : Option Nat) (first : List UInt8) (rest : List (List UInt8))
    (s : Compressing Cv Hash) : Prop :=
  (∃ taken remaining, rest = taken ++ remaining ∧ Taking b maxBytes taken s.driver ∧
    s.driver.held.toList ++ s.coming.map WorkerEvent.chunk = remaining.map .next ++ [.head first]) ∨
  (Uploaded b first rest s.driver ∧ s.driver.held = none ∧ s.coming = []) ∨
  OutOfRoom maxBytes (first ++ rest.flatten) s.driver

theorem outOfRoom {needed : Nat} (hover : driver.maxBytes.any (fun max => CompressDriver.exceedsLimit needed max))
    (hbounded : driver.maxBytes = maxBytes) (hle : needed ≤ archive.length) :
    OutOfRoom maxBytes archive { driver with stopped := some .maxStorageReached } := by
  refine ⟨rfl, ?_⟩
  rw [hbounded] at hover
  cases maxBytes with
  | none => cases hover
  | some max => exact ⟨max, rfl, Nat.lt_of_lt_of_le (of_decide_eq_true hover) hle⟩

theorem Taking.takeChunk (h : Taking b maxBytes taken driver) (hcut : CutUp archive first rest)
    (hparts : rest = taken ++ remaining) (hheld : driver.held = none) {chunk : ArchiveChunk} {coming : List WorkerEvent}
    (hqueue : chunk :: coming.map WorkerEvent.chunk = remaining.map .next ++ [.head first]) (permit : Bool) :
    ∃ after, driver.takeChunk b permit chunk = some after ∧
      Compressed b maxBytes first rest ⟨after, coming⟩ := by
  obtain ⟨hasher, hhash, hhashing⟩ := h.hash
  unfold CompressDriver.takeChunk
  cases permit with
  | false => exact ⟨_, rfl, Or.inl ⟨taken, remaining, hparts, ⟨⟨hasher, hhash, hhashing⟩, h.written,
      h.nextIndex, h.uploads, h.bounded, h.going⟩, hqueue⟩⟩
  | true =>
    rw [if_neg nofun]
    cases remaining with
    | nil =>
      obtain ⟨rfl, hnone⟩ := List.cons.inj hqueue
      rw [append_nil] at hparts
      subst hparts
      split
      · rename_i hover
        refine ⟨_, rfl, Or.inr (Or.inr (outOfRoom hover h.bounded ?_))⟩
        rw [h.written, length_append, Nat.add_comm]
        exact Nat.le_refl _
      rw [hhash]
      dsimp only
      rw [hhashing.finalize hcut.head hcut.full hcut.last]
      refine ⟨_, rfl, Or.inr (Or.inl ⟨⟨rfl, ?_, h.nextIndex, ?_, h.going⟩, hheld,
        map_eq_nil_iff.mp hnone⟩)⟩
      · show driver.written + first.length = _
        rw [h.written, length_append, Nat.add_comm]
      show (driver.uploads ++ [(0, first)]).Perm _
      rw [h.uploads, zipIdx_cons, map_cons]
      exact perm_append_singleton _ _
    | cons data remaining =>
      obtain ⟨rfl, hrest⟩ := List.cons.inj hqueue
      have hwhole : rest.flatten = taken.flatten ++ (data ++ remaining.flatten) := by
        rw [hparts, flatten_append, flatten_cons]
      split
      · rename_i hover
        refine ⟨_, rfl, Or.inr (Or.inr (outOfRoom hover h.bounded ?_))⟩
        rw [h.written, hwhole, length_append, length_append, length_append]
        show _ + data.length ≤ _
        omega
      have hsize : ∀ block ∈ taken, block.length = chunkSize := by
        intro block hmem
        refine hcut.full block ?_
        rw [hparts, dropLast_append_of_ne_nil (cons_ne_nil _ _)]
        exact mem_append_left _ hmem
      have hdata : 0 < data.length ∧ data.length ≤ chunkSize := by
        cases remaining with
        | nil =>
          refine hcut.last data ?_
          rw [hparts, getLast?_concat]
          rfl
        | cons other remaining =>
          have hfull : data.length = chunkSize := by
            refine hcut.full data ?_
            rw [hparts, dropLast_append_of_ne_nil (cons_ne_nil _ _),
              dropLast_cons_of_ne_nil (cons_ne_nil _ _)]
            exact mem_append_right _ mem_cons_self
          rw [hfull]
          exact ⟨chunkSize_pos, Nat.le_refl _⟩
      obtain ⟨next, hupdate, hnext⟩ := hhashing.update hsize hdata.1 hdata.2
      rw [hhash]
      dsimp only
      rw [hupdate]
      refine ⟨_, rfl, Or.inl ⟨taken ++ [data], remaining, ?_, ⟨⟨next, rfl, hnext⟩, ?_, ?_, ?_,
        h.bounded, h.going⟩, ?_⟩⟩
      · rw [hparts, append_assoc]
        rfl
      · show driver.written + data.length = _
        rw [h.written, flatten_append, flatten_singleton, length_append]
      · show driver.nextIndex + 1 = _
        rw [h.nextIndex, length_append, length_singleton]
      · show driver.uploads ++ [(driver.nextIndex, data)] = _
        rw [h.uploads, h.nextIndex, zipIdx_append, map_append, Nat.add_comm 1]
        rfl
      show driver.held.toList ++ _ = _
      rw [hheld]
      exact hrest

/-- A driver that waits for nothing takes what comes next, and one that holds a chunk tries it again. -/
theorem Compressed.moves {s : Compressing Cv Hash} (h : Compressed b maxBytes first rest s)
    (hcut : CutUp archive first rest) (hgoing : s.driver.stopped = none) (permit : Bool) :
    (s.driver.held = none → s.coming ≠ [] →
        ∃ after, step b (.event permit) s = some after ∧ Compressed b maxBytes first rest after) ∧
      ∃ after, step b (.advance permit) s = some after ∧
        Compressed b maxBytes first rest after := by
  unfold Compressing.step
  rw [hgoing]
  rcases h with ⟨taken, remaining, hparts, htaking, hqueue⟩ | ⟨huploaded, hheld, hcoming⟩ | hfull
  · constructor
    · intro hheld hcoming
      rw [hheld]
      cases hcoming' : s.coming with
      | nil => exact absurd hcoming' hcoming
      | cons event coming =>
        rw [hheld, hcoming'] at hqueue
        obtain ⟨after, htake, hafter⟩ := htaking.takeChunk hcut hparts hheld hqueue permit
        refine ⟨⟨after, coming⟩, ?_, hafter⟩
        dsimp only
        rw [htake]
        rfl
    cases hheld : s.driver.held with
    | none =>
      exact ⟨s, rfl, Or.inl ⟨taken, remaining, hparts, htaking, hqueue⟩⟩
    | some chunk =>
      rw [hheld] at hqueue
      have hempty : Taking b maxBytes taken { s.driver with held := none } :=
        ⟨htaking.hash, htaking.written, htaking.nextIndex, htaking.uploads, htaking.bounded, htaking.going⟩
      obtain ⟨after, htake, hafter⟩ := hempty.takeChunk hcut hparts rfl hqueue permit
      refine ⟨⟨after, s.coming⟩, ?_, hafter⟩
      dsimp only
      rw [htake]
      rfl
  · rw [hheld]
    exact ⟨fun _ hnot => absurd hcoming hnot, s, rfl, Or.inr (Or.inl ⟨huploaded, hheld, hcoming⟩)⟩
  rw [hfull.1] at hgoing
  cases hgoing

theorem compressed_of_reaches (hcut : CutUp archive first rest) {s : Compressing Cv Hash}
    (hreach : (machine b true maxBytes (rest.map WorkerEvent.data ++ [WorkerEvent.head first])).Reaches
      (fun _ _ => True) s) :
    Compressed b maxBytes first rest s := by
  refine hreach.invariant ?_ fun s t move h _ hstep => ?_
  · refine Or.inl ⟨[], rest, rfl, ⟨⟨.new, rfl, .new⟩, rfl, rfl, rfl, rfl, rfl⟩, ?_⟩
    show (rest.map WorkerEvent.data ++ [WorkerEvent.head first]).map WorkerEvent.chunk = _
    rw [map_append, map_map]
    rfl
  change step b move s = some t at hstep
  cases hstopped : s.driver.stopped with
  | some error =>
    unfold Compressing.step at hstep
    rw [hstopped] at hstep
    cases hstep
  | none =>
    cases move with
    | advance permit =>
      obtain ⟨after, hafter, hkept⟩ := (h.moves hcut hstopped permit).2
      rw [hafter] at hstep
      cases hstep
      exact hkept
    | event permit =>
      have hready : s.driver.held = none ∧ s.coming ≠ [] := by
        unfold Compressing.step at hstep
        rw [hstopped] at hstep
        cases hheld : s.driver.held with
        | some chunk =>
          rw [hheld] at hstep
          cases hstep
        | none =>
          refine ⟨rfl, fun hempty => ?_⟩
          rw [hheld, hempty] at hstep
          cases hstep
      obtain ⟨after, hafter, hkept⟩ := (h.moves hcut hstopped permit).1 hready.1 hready.2
      rw [hafter] at hstep
      cases hstep
      exact hkept

theorem CutUp.whole_chunks (h : CutUp archive first rest) :
    ∀ chunk ∈ (first :: rest).dropLast, chunk.length = chunkSize := by
  intro chunk hmem
  cases rest with
  | nil => cases hmem
  | cons second rest =>
    rw [dropLast_cons_of_ne_nil (cons_ne_nil _ _)] at hmem
    rcases mem_cons.mp hmem with rfl | hlater
    · exact h.head (cons_ne_nil _ _)
    · exact h.full chunk hlater

/-- What is written to a head sink is, with its start written over, what is uploaded and
hashed. Every sequence of writes is taken. A start no longer than a chunk and than what was
written is patched in, and a longer one is refused. However its chunks wait for memory, the
driver then takes each of them, unless they are more than is free, and in the end the chunks
it uploaded are the archive cut where each is full, under their places in it, and its hash is
the archive's. -/
theorem head_last_is_whole (b : Blake3 Cv Hash) (maxBytes : Option Nat) (bufs : List (List UInt8)) :
    ∃ data head, HeadSink.writes bufs (.new ⟨[], false⟩) = .ok (data, head) ∧
      ∀ start : List UInt8, start.length ≤ data.length →
        (chunkSize < start.length → head.finishWithHead start = .error .short) ∧
        (start.length ≤ chunkSize → ∃ port, head.finishWithHead start = .ok (data.length, port) ∧
          ∀ s, (machine b true maxBytes port.sent).Reaches (fun _ _ => True) s →
            (s.driver.stopped = none → ∀ permit,
              (s.driver.held = none → s.coming ≠ [] → step b (.event permit) s ≠ none) ∧
                step b (.advance permit) s ≠ none) ∧
            (∀ error, s.driver.stopped = some error → OutOfRoom maxBytes data s.driver) ∧
            (s.driver.stopped = none → s.driver.held = none → s.coming = [] →
              s.driver.written = data.length ∧
              s.driver.hash = .done (b.hash (start ++ data.drop start.length)) ∧
              ∃ chunks : List (List UInt8), s.driver.uploads.Perm (chunks.zipIdx.map Prod.swap) ∧
                chunks.length = s.driver.nextIndex ∧
                chunks.flatten = start ++ data.drop start.length ∧
                ∀ chunk ∈ chunks.dropLast, chunk.length = chunkSize)) := by
  obtain ⟨data, blocks, head, hwrites, hsinking⟩ := sinking_new.writes bufs
  rw [nil_append] at hsinking
  refine ⟨data, head, hwrites, fun start hdata => ⟨hsinking.refuses hdata, fun hstart => ?_⟩⟩
  obtain ⟨port, first, rest, hfinish, hcut, hsent⟩ := hsinking.finish hdata hstart
  refine ⟨port, hfinish, fun s hreach => ?_⟩
  rw [hsent] at hreach
  have hcompressed := compressed_of_reaches hcut hreach
  have hlength : (first ++ rest.flatten).length = data.length := by
    rw [← hcut.whole, length_append, length_drop, Nat.add_sub_cancel' hdata]
  refine ⟨fun hgoing permit => ?_, fun error hstopped => ?_, fun hgoing hheld hcoming => ?_⟩
  · obtain ⟨hevent, after, hadvance, -⟩ := hcompressed.moves hcut hgoing permit
    refine ⟨fun hheld hcoming hnone => ?_, fun hnone => ?_⟩
    · obtain ⟨after, hafter, -⟩ := hevent hheld hcoming
      rw [hnone] at hafter
      cases hafter
    rw [hnone] at hadvance
    cases hadvance
  · rcases hcompressed with ⟨_, _, _, htaking, _⟩ | ⟨huploaded, _, _⟩ | ⟨hfull, max, hmax, hlt⟩
    · rw [htaking.going] at hstopped
      cases hstopped
    · rw [huploaded.going] at hstopped
      cases hstopped
    · exact ⟨hfull, max, hmax, hlength ▸ hlt⟩
  rcases hcompressed with ⟨taken, remaining, _, _, hqueue⟩ | ⟨huploaded, _, _⟩ | ⟨hfull, _⟩
  · rw [hheld, hcoming] at hqueue
    exact absurd hqueue.symm (append_ne_nil_of_right_ne_nil _ (cons_ne_nil _ _))
  · refine ⟨huploaded.written.trans hlength, ?_, first :: rest, huploaded.uploads,
      huploaded.nextIndex.symm, hcut.whole.symm, hcut.whole_chunks⟩
    rw [huploaded.hash, hcut.whole]
  rw [hfull] at hgoing
  cases hgoing

section Behind

variable {whole : List UInt8}

/-- A whole chunk is kept for the head, and what is behind it waits to be full. -/
theorem writes_behind (hwhole : whole.length = chunkSize) :
    HeadSink.writes [whole, [1, 2, 3]] (.new ⟨[], false⟩) =
      .ok (whole ++ [1, 2, 3], ⟨⟨⟨[], false⟩, [1, 2, 3], chunkSize + 3, false⟩, some whole⟩) := by
  have hshort : ¬ ([1, 2, 3] : List UInt8).length = chunkSize := by
    unfold chunkSize
    decide
  have hroom : min ([1, 2, 3] : List UInt8).length chunkSize = 3 := by
    unfold chunkSize
    decide
  have hfirst : (HeadSink.new ⟨[], false⟩).write whole =
      (.ok chunkSize, ⟨⟨⟨[], false⟩, [], chunkSize, false⟩, some whole⟩) := by
    unfold HeadSink.write ChunkSink.fill HeadSink.new ChunkSink.new
    simp [hwhole, take_of_length_le]
  have hsecond : (⟨⟨⟨[], false⟩, [], chunkSize, false⟩, some whole⟩ : HeadSink).write [1, 2, 3] =
      (.ok 3, ⟨⟨⟨[], false⟩, [1, 2, 3], chunkSize + 3, false⟩, some whole⟩) := by
    unfold HeadSink.write ChunkSink.fill
    dsimp only
    rw [if_neg Bool.false_ne_true, length_nil, Nat.sub_zero, hroom, nil_append]
    rw [show ([1, 2, 3] : List UInt8).take 3 = [1, 2, 3] from rfl, if_neg hshort]
  unfold HeadSink.writes
  rw [hfirst]
  dsimp only
  unfold HeadSink.writes
  rw [hsecond]
  show Except.ok (whole.take chunkSize ++ ([1, 2, 3] ++ []), _) = _
  rw [take_of_length_le (Nat.le_of_eq hwhole)]
  rfl

theorem finishWithHead_behind (hwhole : whole.length = chunkSize) :
    (⟨⟨⟨[], false⟩, [1, 2, 3], chunkSize + 3, false⟩, some whole⟩ : HeadSink).finishWithHead [7] =
      .ok (chunkSize + 3, ⟨[.data [1, 2, 3], .head (7 :: whole.drop 1)], false⟩) := by
  have hlong : ¬ whole.length < ([7] : List UInt8).length := by
    have hpos := chunkSize_pos
    rw [hwhole, length_singleton]
    omega
  unfold HeadSink.finishWithHead
  dsimp only
  rw [if_neg Bool.false_ne_true, if_neg hlong]
  rfl

/-- The chunk behind the head waits for memory, and both are uploaded. -/
theorem run_behind (b : Blake3 Cv Hash) (head : List UInt8) (hsome : head ≠ []) :
    ∃ s, (machine b true none [.data [1, 2, 3], .head head]).run [.event false, .advance true, .event true]
        (machine b true none [.data [1, 2, 3], .head head]).start = some s ∧
      s.driver.uploads = [(1, [1, 2, 3]), (0, head)] ∧ s.driver.stopped = none ∧ s.driver.held = none ∧
      s.coming = [] := by
  have hbehind : chunkSize % chunkLen = 0 ∧ ([1, 2, 3] : List UInt8) ≠ [] ∧
      ∀ max ∈ maxSubtreeLen chunkSize, ([1, 2, 3] : List UInt8).length ≤ max := by
    decide +kernel
  have hupdate : HeadLastHasher.new.update b [1, 2, 3] =
      some ⟨1, some (b.tree.subtree chunkSize [1, 2, 3]), [], []⟩ := by
    unfold HeadLastHasher.update HeadLastHasher.new Blake3.finalizeNonRoot
    dsimp only
    rw [Nat.zero_add, Nat.one_mul, if_pos hbehind]
    rfl
  have hfinalize : ∃ hash, HeadLastHasher.finalize b head
      ⟨1, some (b.tree.subtree chunkSize [1, 2, 3]), [], []⟩ = some hash := by
    unfold HeadLastHasher.finalize Blake3.finalizeNonRoot
    dsimp only
    rw [if_pos ⟨rfl, hsome, fun _ hmax => nomatch hmax⟩]
    exact ⟨_, rfl⟩
  obtain ⟨hash, hfinalize⟩ := hfinalize
  refine ⟨⟨⟨.done hash, 3 + head.length, 2, [(1, [1, 2, 3]), (0, head)], none, none, none⟩, []⟩, ?_, rfl, rfl, rfl, rfl⟩
  simp [Machine.run, machine, step, CompressDriver.new, CompressDriver.takeChunk, CompressDriver.upload,
    WorkerEvent.chunk, ArchiveChunk.data, hupdate, hfinalize]

end Behind

/-- A whole chunk and three bytes behind it: the start of the chunk is written over, and what is
behind it is uploaded first. -/
theorem head_last_is_whole_behind :
    let b : Blake3 Nat (List UInt8) :=
      ⟨fun n data => n + data.length, fun left right => left + right, id, fun _ _ => []⟩
    ∃ whole : List UInt8, whole.length = chunkSize ∧ ∃ data head port s,
      HeadSink.writes [whole, [1, 2, 3]] (.new ⟨[], false⟩) = .ok (data, head) ∧
      head.finishWithHead [7] = .ok (chunkSize + 3, port) ∧
      (machine b true none port.sent).Reaches (fun _ _ => True) s ∧
      s.driver.uploads = [(1, [1, 2, 3]), (0, 7 :: whole.drop 1)] ∧
      s.driver.written = chunkSize + 3 ∧
      s.driver.hash = .done (b.hash (7 :: whole.drop 1 ++ [1, 2, 3])) := by
  intro b
  refine ⟨List.replicate chunkSize 0, length_replicate, ?_⟩
  have hwhole : (List.replicate chunkSize (0 : UInt8)).length = chunkSize := length_replicate
  generalize List.replicate chunkSize (0 : UInt8) = whole at hwhole
  obtain ⟨data, head, hwrites, hall⟩ := head_last_is_whole b none [whole, [1, 2, 3]]
  have hsame := hwrites
  rw [writes_behind hwhole] at hsame
  cases hsame
  have hpos := chunkSize_pos
  have hlength : (whole ++ [1, 2, 3]).length = chunkSize + 3 := by
    rw [length_append, hwhole]
    rfl
  obtain ⟨port, hfinish, hruns⟩ := (hall [7] (by rw [hlength]; exact Nat.le_add_left 1 _)).2 hpos
  have hport := hfinish
  rw [finishWithHead_behind hwhole, hlength] at hport
  cases hport
  obtain ⟨s, hrun, huploads, hgoing, hheld, hcoming⟩ := run_behind b (7 :: whole.drop 1) (cons_ne_nil _ _)
  have hreach := Machine.reaches_of_run .start hrun
  obtain ⟨hwritten, hhash, -⟩ := (hruns s hreach).2.2 hgoing hheld hcoming
  have hdrop : (whole ++ [1, 2, 3]).drop 1 = whole.drop 1 ++ [1, 2, 3] :=
    drop_append_of_le_length (by omega)
  refine ⟨_, _, _, s, hwrites, hfinish.trans (by rw [hlength]), hreach, huploads, hwritten.trans hlength, ?_⟩
  rw [hhash, length_singleton, hdrop]
  rfl

end SyncEngine.Archive
