import FusePromise.Foundation.Paging
import FusePromise.Fuse.Listing

/-!
# Reading a directory page by page

`readdir` hands out the entries of a directory in pages, and the offset of an
entry is its position in the listing that is made for that call.  A client that
comes back with the offset of its last entry finds its place again as long as
nothing was inserted before it.  Ids sort as texts, `promise-10` before
`promise-2`, so a commit between two pages can insert before the cursor, and the
entry in front of the cursor is then returned once more.
-/

namespace FusePromise

open FusePromise.Runtime

/-! ## The client -/

/-- An entry of a reply, with the offset at which a client goes on after it. -/
structure ReplyEntry where
  entry : DirectoryEntry
  offset : ℕ
  deriving DecidableEq

/-- One `readdir` call, whose reply has room for `size` entries. -/
def readdir (runtime : Runtime) (inode offset size : ℕ) : Except Errno (List ReplyEntry) := do
  let entries ← directoryEntries runtime inode
  return ((entries.zipIdx.drop offset).take size).map fun (entry, index) => ⟨entry, index + 1⟩

/-- A client that lists a directory, with the entries it has been given so far. -/
structure Enumeration where
  runtime : Runtime
  offset : ℕ
  returned : List DirectoryEntry

inductive ListingEvent
  | page (size : ℕ)
  | call (call : RuntimeCall)

namespace Enumeration

/-- The client asks for the next page where the last entry it was given ends, or a call
changes the runtime. -/
def apply (d : ℕ) (state : Enumeration) : ListingEvent → Enumeration
  | .page size =>
      match readdir state.runtime d state.offset size with
      | .error _ => state
      | .ok accepted =>
          { state with
            offset := (accepted.getLast?.map ReplyEntry.offset).getD state.offset
            returned := state.returned ++ accepted.map ReplyEntry.entry }
  | .call call => { state with runtime := state.runtime.perform call }

def run (d : ℕ) (state : Enumeration) (events : List ListingEvent) : Enumeration :=
  events.foldl (apply d) state

/-- The next page is empty, which is the end of the directory. -/
def Ended (d : ℕ) (state : Enumeration) : Prop :=
  readdir state.runtime d state.offset 1 = .ok []

instance (d : ℕ) (state : Enumeration) : Decidable (state.Ended d) :=
  inferInstanceAs (Decidable (_ = _))

/-- The directory has the entry now. -/
def Present (d : ℕ) (entry : DirectoryEntry) (state : Enumeration) : Prop :=
  ∃ entries, directoryEntries state.runtime d = .ok entries ∧ entry ∈ entries

/-- The directory has the entry from here to the end of the events. -/
def PresentThroughout (d : ℕ) (entry : DirectoryEntry) : Enumeration → List ListingEvent → Prop
  | state, [] => state.Present d entry
  | state, event :: rest =>
      state.Present d entry ∧ PresentThroughout d entry (state.apply d event) rest

/-- The call adds a promise that sorts before the entry in front of the cursor, and that entry
was there when the client started. -/
def Displaces (d : ℕ) (initial : List DirectoryEntry) (state : Enumeration)
    (call : RuntimeCall) : Prop :=
  d = fuseRootInode ∧ addsPromise state.runtime call ∧ 0 < state.offset ∧
    ∃ entries last, directoryEntries state.runtime d = .ok entries ∧
      entries[state.offset - 1]? = some last ∧ last ∈ initial ∧
      compare (promiseName state.runtime.nextPromiseId) last.name = .lt

/-- No call of the events displaces an entry. -/
def Undisturbed (d : ℕ) (initial : List DirectoryEntry) : Enumeration → List ListingEvent → Prop
  | _, [] => True
  | state, event :: rest =>
      (∀ call, event = .call call → ¬ Displaces d initial state call) ∧
        Undisturbed d initial (state.apply d event) rest

/-! ## One event -/

/-- The entries of a page, and the offset after it. -/
theorem readdir_spec {runtime : Runtime} {d : ℕ} {entries : List DirectoryEntry}
    (h : directoryEntries runtime d = .ok entries) (offset size : ℕ) :
    ∃ accepted, readdir runtime d offset size = .ok accepted ∧
      accepted.map ReplyEntry.entry = Paging.page entries offset size ∧
      (accepted.getLast?.map ReplyEntry.offset).getD offset =
        offset + (Paging.page entries offset size).length := by
  refine ⟨((entries.zipIdx.drop offset).take size).map fun (entry, index) => ⟨entry, index + 1⟩,
    ?_, ?_, ?_⟩
  · simp only [readdir, h, bind, Except.bind, pure, Except.pure]
  · rw [List.map_map, Paging.page]
    conv_rhs => rw [← List.zipIdx_map_fst 0 entries]
    rw [← List.map_drop, ← List.map_take]
    rfl
  · rw [Paging.length_page, List.getLast?_eq_getElem?]
    simp only [List.length_map, List.length_take, List.length_drop, List.length_zipIdx,
      List.getElem?_map, List.getElem?_take, List.getElem?_drop, List.getElem?_zipIdx]
    by_cases hempty : min size (entries.length - offset) = 0
    · rcases Nat.eq_zero_or_pos size with rfl | hpos
      · simp
      · rw [hempty, List.getElem?_eq_none (by omega)]
        simp
    · have hlast : offset + (min size (entries.length - offset) - 1) < entries.length := by omega
      rw [if_pos (by omega), List.getElem?_eq_getElem hlast]
      simp only [Option.map_some, Option.getD_some]
      omega

/-- The client reads a directory that has these entries now. -/
structure Reading (d : ℕ) (state : Enumeration) (entries : List DirectoryEntry) : Prop where
  wellFormed : state.runtime.WellFormed
  identified : state.runtime.Identified
  directory : ∃ directory, state.runtime.lookupInode d = .ok directory ∧
    directory.kind = .directory
  entries : directoryEntries state.runtime d = .ok entries

variable {d : ℕ} {state : Enumeration} {entries : List DirectoryEntry}

theorem Reading.nodup (h : Reading d state entries) : entries.Nodup := by
  obtain ⟨directory, hdir, hkind⟩ := h.directory
  exact nodup_directoryEntries h.wellFormed h.identified hdir hkind h.entries

theorem Reading.ended_iff (h : Reading d state entries) :
    state.Ended d ↔ entries.length ≤ state.offset := by
  obtain ⟨accepted, haccepted, hpage, -⟩ := readdir_spec h.entries state.offset 1
  rw [Ended, haccepted, Except.ok.injEq, ← List.map_eq_nil_iff (f := ReplyEntry.entry), hpage,
    ← List.length_eq_zero_iff, Paging.length_page]
  omega

theorem Reading.page (h : Reading d state entries) (size : ℕ) :
    Reading d (state.apply d (.page size)) entries ∧
      (state.apply d (.page size)).offset =
        state.offset + (Paging.page entries state.offset size).length ∧
      (state.apply d (.page size)).returned =
        state.returned ++ Paging.page entries state.offset size := by
  obtain ⟨accepted, haccepted, hpage, hoffset⟩ := readdir_spec h.entries state.offset size
  have hnext : state.apply d (.page size) = { state with
      offset := state.offset + (Paging.page entries state.offset size).length
      returned := state.returned ++ Paging.page entries state.offset size } := by
    simp only [Enumeration.apply, haccepted, hpage, hoffset]
  rw [hnext]
  exact ⟨⟨h.wellFormed, h.identified, h.directory, h.entries⟩, rfl, rfl⟩

/-- A call inserts an entry or leaves the listing alone. -/
theorem Reading.call (h : Reading d state entries) (call : RuntimeCall) :
    ∃ later, Reading d (state.apply d (.call call)) later ∧
      if d = fuseRootInode ∧ addsPromise state.runtime call then
        ∃ before added after, entries = before ++ after ∧ later = before ++ added :: after ∧
          (∀ entry ∈ before,
            compare (promiseName state.runtime.nextPromiseId) entry.name ≠ .lt) ∧
          ∀ entry ∈ after, compare (promiseName state.runtime.nextPromiseId) entry.name = .lt
      else later = entries := by
  obtain ⟨directory, hdir, hkind⟩ := h.directory
  obtain ⟨hwf, hids, -⟩ := perform_spec h.wellFormed h.identified call
  have hdirectory := lookupInode_perform h.wellFormed h.identified call hdir hkind
  have hcall := directoryEntries_perform h.wellFormed h.identified call hdir hkind h.entries
  split at hcall
  · rename_i hadds
    obtain ⟨before, added, after, hentries, hlater, hlow, hhigh⟩ := hcall
    refine ⟨before ++ added :: after, ⟨hwf, hids, hdirectory, hlater⟩, ?_⟩
    rw [if_pos hadds]
    exact ⟨before, added, after, hentries, rfl, hlow, hhigh⟩
  · rename_i hadds
    refine ⟨entries, ⟨hwf, hids, hdirectory, hcall⟩, ?_⟩
    rw [if_neg hadds]

/-- An entry stays in the listing. -/
theorem Reading.apply (h : Reading d state entries) (event : ListingEvent) :
    ∃ later, Reading d (state.apply d event) later ∧ ∀ entry ∈ entries, entry ∈ later := by
  cases event with
  | page size => exact ⟨entries, (h.page size).1, fun _ hentry => hentry⟩
  | call call =>
      obtain ⟨later, hlater, hcall⟩ := h.call call
      refine ⟨later, hlater, ?_⟩
      split at hcall
      · obtain ⟨before, added, after, rfl, rfl, -⟩ := hcall
        intro entry hentry
        rcases List.mem_append.mp hentry with hentry | hentry
        · exact List.mem_append_left _ hentry
        · exact List.mem_append_right _ (List.mem_cons_of_mem _ hentry)
      · exact hcall ▸ fun _ hentry => hentry

/-- What a directory has at the start it has throughout. -/
theorem Reading.presentThroughout_iff (h : Reading d state entries) (entry : DirectoryEntry)
    (events : List ListingEvent) :
    PresentThroughout d entry state events ↔ entry ∈ entries := by
  have hpresent : ∀ {state : Enumeration} {entries : List DirectoryEntry},
      Reading d state entries → (state.Present d entry ↔ entry ∈ entries) := by
    intro state entries h
    unfold Present
    rw [h.entries]
    simp
  induction events generalizing state entries with
  | nil => exact hpresent h
  | cons event rest ih =>
      obtain ⟨later, hlater, hmem⟩ := h.apply event
      exact ⟨fun hboth => (hpresent h).mp hboth.1, fun hentry =>
        ⟨(hpresent h).mpr hentry, (ih hlater).mpr (hmem entry hentry)⟩⟩

/-! ## Whole enumerations -/

/-- An entry that comes again has come twice at the end. -/
theorem Reading.two_le_count (h : Reading d state entries) {entry : DirectoryEntry}
    (hrepeats : Paging.Repeats entries state.offset state.returned entry)
    {events : List ListingEvent} (hend : (state.run d events).Ended d) :
    2 ≤ (state.run d events).returned.count entry := by
  induction events generalizing state entries with
  | nil => exact hrepeats.two_le_count (h.ended_iff.mp hend)
  | cons event rest ih =>
      cases event with
      | page size =>
          obtain ⟨hnext, hoffset, hreturned⟩ := h.page size
          refine ih hnext ?_ hend
          rw [hoffset, hreturned]
          exact hrepeats.page h.nodup size
      | call call =>
          obtain ⟨later, hlater, hcall⟩ := h.call call
          refine ih hlater ?_ hend
          split at hcall
          · obtain ⟨before, added, after, rfl, rfl, -⟩ := hcall
            exact hrepeats.insert
          · exact hcall ▸ hrepeats

/-- As long as every entry is in its place, the enumeration is exact if and only if nothing
displaces one of them. -/
theorem Reading.exact_iff {initial : List DirectoryEntry} (h : Reading d state entries)
    (hplaced : ∀ entry ∈ initial, Paging.Placed entries state.offset state.returned entry)
    {events : List ListingEvent} (hend : (state.run d events).Ended d) :
    (∀ entry ∈ initial, (state.run d events).returned.count entry = 1) ↔
      Undisturbed d initial state events := by
  induction events generalizing state entries with
  | nil =>
      simp only [Undisturbed, iff_true]
      exact fun entry hentry => (hplaced entry hentry).count_eq_one (h.ended_iff.mp hend)
  | cons event rest ih =>
      cases event with
      | page size =>
          obtain ⟨hnext, hoffset, hreturned⟩ := h.page size
          have hplaced' : ∀ entry ∈ initial, Paging.Placed entries
              (state.apply d (.page size)).offset (state.apply d (.page size)).returned entry := by
            intro entry hentry
            rw [hoffset, hreturned]
            exact (hplaced entry hentry).page h.nodup size
          rw [Undisturbed, ← ih hnext hplaced' hend]
          simp [run]
      | call call =>
          obtain ⟨later, hlater, hcall⟩ := h.call call
          by_cases hdisplaces : Displaces d initial state call
          · -- the entry in front of the cursor comes again
            obtain ⟨hd, hadds, hpos, entries', last, hentries', hlast, hinitial, hlt⟩ :=
              id hdisplaces
            obtain rfl := Except.ok.inj (h.entries.symm.trans hentries')
            rw [if_pos ⟨hd, hadds⟩] at hcall
            obtain ⟨before, added, after, rfl, rfl, hlow, -⟩ := hcall
            have hbefore : before.length < state.offset := by
              by_contra hle
              have hmem : last ∈ before := by
                rw [List.getElem?_append_left (by omega)] at hlast
                exact List.mem_of_getElem? hlast
              exact hlow last hmem hlt
            have htwice := hlater.two_le_count
              ((hplaced last hinitial).repeats h.nodup hbefore hlast) hend
            refine iff_of_false (fun hexact => ?_) fun hundisturbed =>
              hundisturbed.1 call rfl hdisplaces
            have hone := hexact last hinitial
            rw [run, List.foldl_cons] at hone
            rw [run] at htwice
            omega
          · have hplaced' : ∀ entry ∈ initial, Paging.Placed later
                (state.apply d (.call call)).offset (state.apply d (.call call)).returned
                entry := by
              intro entry hentry
              split at hcall
              · rename_i hadds
                obtain ⟨before, added, after, rfl, rfl, -, hhigh⟩ := hcall
                refine (hplaced entry hentry).insert fun hbefore hlast => hdisplaces ?_
                refine ⟨hadds.1, hadds.2, by omega, _, entry, h.entries, hlast, hentry, ?_⟩
                rw [List.getElem?_append_right (by omega)] at hlast
                exact hhigh entry (List.mem_of_getElem? hlast)
              · exact hcall ▸ hplaced entry hentry
            rw [Undisturbed, ← ih hlater hplaced' hend]
            simp [run, hdisplaces]

/-- A client that reads a directory to its end is given every entry that was there all the
time exactly once if and only if no promise was committed that sorts before the entry in
front of its cursor, that entry being one it started with. -/
theorem run_exact_iff (calls : List RuntimeCall) {d : ℕ} {directory : RuntimeEntry}
    {initial : List DirectoryEntry} (events : List ListingEvent)
    (hdir : (Runtime.new.performAll calls).lookupInode d = .ok directory)
    (hkind : directory.kind = .directory)
    (hinitial : directoryEntries (Runtime.new.performAll calls) d = .ok initial) :
    let start : Enumeration := ⟨Runtime.new.performAll calls, 0, []⟩
    (start.run d events).Ended d →
    ((∀ entry, PresentThroughout d entry start events →
        (start.run d events).returned.count entry = 1) ↔
      Undisturbed d initial start events) := by
  intro start hend
  obtain ⟨hwf, hids⟩ := reachable_spec calls
  have hreading : Reading d start initial := ⟨hwf, hids, ⟨directory, hdir, hkind⟩, hinitial⟩
  simp only [hreading.presentThroughout_iff]
  refine hreading.exact_iff (fun entry hentry => ?_) hend
  obtain ⟨k, hk⟩ := List.mem_iff_getElem?.mp hentry
  exact ⟨k, hk, rfl⟩

/-- A client reads the mount root in two pages.  The promise that is committed between them sorts
behind those that are there, and is given as well. -/
theorem run_exact_two_pages :
    let calls : List RuntimeCall := [.op .registerProvider, .commitBuilder 1 [],
      .commitBuilder 1 []]
    let start : Enumeration := ⟨Runtime.new.performAll calls, 0, []⟩
    let events : List ListingEvent := [.page 3, .call (.commitBuilder 1 []), .page 3]
    (start.run fuseRootInode events).Ended fuseRootInode ∧
      ⟨"promise-3".toList, 4, .directory⟩ ∈ (start.run fuseRootInode events).returned ∧
      ∀ entry, PresentThroughout fuseRootInode entry start events →
        (start.run fuseRootInode events).returned.count entry = 1 := by
  intro calls start events
  have hend : (start.run fuseRootInode events).Ended fuseRootInode := by decide +kernel
  refine ⟨hend, by decide +kernel, ?_⟩
  refine (run_exact_iff calls events rfl rfl rfl hend).mpr ⟨by simp, ?_, by simp, trivial⟩
  rintro call - ⟨-, -, -, entries, last, hentries, hlast, -, hbefore⟩
  -- the cursor is behind the first promise
  have hfirst : directoryEntries (start.apply fuseRootInode (.page 3)).runtime fuseRootInode =
      .ok [⟨['.'], 1, .directory⟩, ⟨['.', '.'], 1, .directory⟩,
        ⟨"promise-1".toList, 2, .directory⟩, ⟨"promise-2".toList, 3, .directory⟩] := by
    decide +kernel
  obtain rfl := Except.ok.inj (hentries.symm.trans hfirst)
  obtain rfl := Option.some.inj hlast
  exact absurd hbefore (by decide +kernel)

/-- Nine promises are there when the client starts.  It is given `.`, `..` and the first two,
the tenth is committed, and it is given the second one again. -/
theorem run_repeats_entry :
    let start : Enumeration := ⟨Runtime.new.performAll
      (.op .registerProvider :: List.replicate 9 (.commitBuilder 1 [])), 0, []⟩
    let events : List ListingEvent := [.page 4, .call (.commitBuilder 1 []), .page 16]
    (start.run fuseRootInode events).Ended fuseRootInode ∧
      PresentThroughout fuseRootInode ⟨"promise-2".toList, 3, .directory⟩ start events ∧
      (start.run fuseRootInode events).returned.count
        ⟨"promise-2".toList, 3, .directory⟩ = 2 := by
  intro start events
  obtain ⟨hwf, hids⟩ := reachable_spec
    (.op .registerProvider :: List.replicate 9 (.commitBuilder 1 []))
  have hinitial : directoryEntries start.runtime fuseRootInode =
      .ok (⟨['.'], 1, .directory⟩ :: ⟨['.', '.'], 1, .directory⟩ ::
        (List.range 9).map fun i => ⟨promiseName (i + 1), i + 2, .directory⟩) := by
    decide +kernel
  have hreading : Reading fuseRootInode start _ := ⟨hwf, hids, ⟨.mountRoot, rfl, rfl⟩, hinitial⟩
  exact ⟨by decide +kernel, (hreading.presentThroughout_iff _ _).mpr (by decide +kernel),
    by decide +kernel⟩

end Enumeration

end FusePromise
