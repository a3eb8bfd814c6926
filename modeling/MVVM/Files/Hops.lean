import MVVM.Files.Restore

/-!
# The files of a program that migrates again and again

The guest opens, accesses and closes files, and at any time the process is checkpointed and
another one restores it, with descriptors of its own. All processes of the lineage are made
with the policy `compression` (checkpoint.cpp:104, restore.cpp:63).
-/

namespace MVVM.Files

variable {σ Sock : Type}

/-- A runtime that also carries out the calls of the guest, as it reports them. -/
structure GuestRuntime (σ : Type) extends FdRuntime σ where
  guest : σ → FdCall → σ
  files_guest : ∀ s c, files (guest s c) = (files s).after c

structure Process (σ Sock : Type) where
  fds : σ
  wamr : Wamr Sock

/-- `WAMRInstance` as it is constructed. -/
def constructed : Wamr Sock := ⟨"compression", false, ∅, ∅⟩

/-- What happens to the program: a call of the guest, or a migration into a process that has
the descriptors `fds`. -/
inductive FileEvent (σ : Type) where
  | call (c : FdCall)
  | hop (fds : σ)

/-- `serialize_to_file` sets `should_snapshot` before it dumps, and `restore_impl` does behind
the files. -/
def hop (rt : GuestRuntime σ) (fds : σ) (w : Wamr Sock) : Process σ Sock :=
  let q := restoreFdMap rt.toFdRuntime (dumpFds { w with shouldSnapshot := true })
    (fds, constructed)
  ⟨q.1, { q.2 with shouldSnapshot := true }⟩

def fileStep (rt : GuestRuntime σ) (p : Process σ Sock) : FileEvent σ → Option (Process σ Sock)
  | .call c => (step p.wamr c).map fun w => ⟨rt.guest p.fds c, w⟩
  | .hop fds => some (hop rt fds p.wamr)

def FileEvent.Reported (p : Process σ Sock) : FileEvent σ → Prop
  | .call c => Files.Reported p.wamr c
  | .hop _ => True

/-- The calls of the guest, without the migrations. -/
def guestCalls : List (FileEvent σ) → List FdCall
  | [] => []
  | .call c :: events => c :: guestCalls events
  | .hop _ :: events => guestCalls events

/-- The descriptors of the last process, as it was started. -/
def lastFds (fds : σ) : List (FileEvent σ) → σ
  | [] => fds
  | .call _ :: events => lastFds fds events
  | .hop fds' :: events => lastFds fds' events

def FdCall.fd : FdCall → ℤ
  | .insert fd _ _ _ _ => fd
  | .remove fd => fd

/-! ### The table after a restore -/

theorem wamr_restoreOp (rt : FdRuntime σ) (fd : ℤ) (res : FdRecord) {p : σ × Wamr Sock}
    (hpol : p.2.policy = "compression") (o : OpRecord) :
    (restoreOp rt fd res p o).2 = if o.op = .fopen then p.2.track fd res else p.2 := by
  have hne : ¬p.2.policy = "replay" := by rw [hpol]; decide
  rw [restoreOp, if_neg hne, if_pos hpol]
  split
  · rfl
  · rfl

/-- The operations of a record leave the record in the table, from the first `MVVM_FOPEN` on. -/
theorem fdMap_restoreOps (rt : FdRuntime σ) (fd : ℤ) (res : FdRecord) (ops : List OpRecord)
    {p : σ × Wamr Sock} (hpol : p.2.policy = "compression") :
    (restoreOps rt fd res p ops).2.policy = "compression" ∧
      ∀ g : ℤ, (restoreOps rt fd res p ops).2.fdMap[g]? =
        if (∃ o ∈ ops, o.op = .fopen) ∧ g = fd then some res else p.2.fdMap[g]? := by
  induction ops generalizing p with
  | nil => exact ⟨hpol, fun g => by simp [restoreOps]⟩
  | cons o ops ih =>
    have hstep := wamr_restoreOp rt fd res hpol o
    have hpol' : (restoreOp rt fd res p o).2.policy = "compression" := by
      rw [hstep]
      split
      · exact hpol
      · exact hpol
    obtain ⟨hpolicy, hmap⟩ := ih hpol'
    refine ⟨hpolicy, fun g => (hmap g).trans ?_⟩
    rw [hstep]
    by_cases hop : o.op = .fopen
    · simp only [if_pos hop, Wamr.track, Std.TreeMap.getElem?_insert, Std.compare_eq_iff_eq]
      by_cases hg : g = fd
      · subst hg
        simp [hop]
      · simp [hg, Ne.symm hg]
    · simp [hop]

theorem fdMap_restoreFds (rt : FdRuntime σ) {entries : List (ℤ × FdRecord)} {p : σ × Wamr Sock}
    (hpol : p.2.policy = "compression") (hkeys : entries.Pairwise fun a b => a.1 ≠ b.1)
    (hgood : ∀ e ∈ entries, e.2.Good) :
    (restoreFds rt entries p).2.policy = "compression" ∧
      (∀ e ∈ entries, (restoreFds rt entries p).2.fdMap[e.1]? = some e.2) ∧
      ∀ fd, (∀ e ∈ entries, e.1 ≠ fd) →
        (restoreFds rt entries p).2.fdMap[fd]? = p.2.fdMap[fd]? := by
  induction entries generalizing p with
  | nil => exact ⟨hpol, fun e he => absurd he List.not_mem_nil, fun _ _ => rfl⟩
  | cons e entries ih =>
    obtain ⟨hhead, htail⟩ := List.pairwise_cons.mp hkeys
    obtain ⟨hpol', hmap⟩ := fdMap_restoreOps rt e.1 e.2 e.2.ops hpol
    obtain ⟨hpolicy, hset, hkeep⟩ := ih hpol' htail fun a ha =>
      hgood a (List.mem_cons_of_mem _ ha)
    have hopen : ∃ o ∈ e.2.ops, o.op = .fopen := by
      obtain ⟨o, ho, hop⟩ := Option.map_eq_some_iff.mp (hgood e List.mem_cons_self).opens
      exact ⟨o, List.mem_of_head? ho, hop⟩
    refine ⟨hpolicy, fun a ha => ?_, fun fd hfd => ?_⟩
    · rcases List.mem_cons.mp ha with rfl | ha
      · refine (hkeep a.1 fun b hb => (hhead b hb).symm).trans ?_
        rw [hmap, if_pos ⟨hopen, rfl⟩]
      · exact hset a ha
    · refine (hkeep fd fun b hb => hfd b (List.mem_cons_of_mem _ hb)).trans ?_
      rw [hmap, if_neg fun h => hfd e List.mem_cons_self h.2.symm]

/-! ### A call -/

/-- The record that `insert_fd` makes of the old one. -/
def recordAfter (policy : String) (res : FdRecord) (path : String) (flags offset : ℤ) (op : FdOp) :
    Option FdRecord :=
  if policy = "replay" then
    some ⟨if path ≠ "" then path else res.path, res.ops ++ [⟨flags, offset, op⟩]⟩
  else if path ≠ "" then some ⟨path, res.ops ++ [⟨flags, offset, op⟩]⟩
  else if res.ops.length = 1 then some ⟨res.path, res.ops ++ [⟨flags, offset, .fseek⟩]⟩
  else if res.ops = [] then none
  else some ⟨res.path, res.ops.dropLast ++ [⟨1, offset, .fseek⟩]⟩

theorem insertFd_eq (w : Wamr Sock) {fd : ℤ} (hfd : 2 < fd) (path : String) (flags offset : ℤ)
    (op : FdOp) :
    insertFd w fd path flags offset op =
      (recordAfter w.policy (w.fdMap.getD fd ⟨"", []⟩) path flags offset op).map (w.track fd) := by
  simp only [insertFd, recordAfter, if_pos hfd]
  split
  · rfl
  · split
    · rfl
    · split
      · rfl
      · split
        · rfl
        · rfl

theorem insertFd_std (w : Wamr Sock) {fd : ℤ} (hfd : ¬2 < fd) (path : String) (flags offset : ℤ)
    (op : FdOp) : insertFd w fd path flags offset op = some w := if_neg hfd

/-- Two tables with the same entries have the same entries behind a call. -/
theorem step_congr {w v w' : Wamr Sock} (hpol : w.policy = v.policy)
    (hsame : ∀ fd : ℤ, w.fdMap[fd]? = v.fdMap[fd]?) {c : FdCall} (hw : step w c = some w') :
    ∃ v', step v c = some v' ∧ w'.policy = w.policy ∧ v'.policy = v.policy ∧
      ∀ fd : ℤ, w'.fdMap[fd]? = v'.fdMap[fd]? := by
  cases c with
  | insert fd path flags offset op =>
    have hres : w.fdMap.getD fd ⟨"", []⟩ = v.fdMap.getD fd ⟨"", []⟩ := by
      rw [Std.TreeMap.getD_eq_getD_getElem?, Std.TreeMap.getD_eq_getD_getElem?, hsame]
    by_cases hfd : 2 < fd
    · rw [step, insertFd_eq w hfd] at hw
      rw [step, insertFd_eq v hfd, ← hpol, ← hres]
      obtain ⟨res, hrec, rfl⟩ := Option.map_eq_some_iff.mp hw
      refine ⟨v.track fd res, by rw [hrec, Option.map_some], rfl, hpol.symm, fun g => ?_⟩
      rw [Wamr.track, Wamr.track, Std.TreeMap.getElem?_insert, Std.TreeMap.getElem?_insert, hsame]
    · rw [step, insertFd_std w hfd] at hw
      obtain rfl := Option.some.inj hw
      exact ⟨v, insertFd_std v hfd path flags offset op, rfl, rfl, hsame⟩
  | remove fd =>
    obtain rfl := Option.some.inj hw
    refine ⟨removeFd v fd, rfl, ?_⟩
    have hmem : fd ∈ w.fdMap ↔ fd ∈ v.fdMap := by
      rw [Maps.mem_iff_exists, Maps.mem_iff_exists, hsame]
    by_cases hm : fd ∈ w.fdMap
    · rw [removeFd, removeFd, if_pos hm, if_pos (hmem.mp hm)]
      refine ⟨rfl, rfl, fun g => ?_⟩
      rw [Std.TreeMap.getElem?_erase, Std.TreeMap.getElem?_erase, hsame]
    · rw [removeFd, removeFd, if_neg hm, if_neg (hmem.not.mp hm)]
      refine ⟨?_, ?_, fun g => ?_⟩
      · split
        · rfl
        · rfl
      · split
        · rfl
        · rfl
      · split
        · split
          · exact hsame g
          · exact hsame g
        · split
          · exact hsame g
          · exact hsame g

/-- The `ops_` of a tracked file are not empty. -/
theorem step_of_reported {w : Wamr Sock} {t : FileTable} (h : Refines w t) {c : FdCall}
    (hc : Reported w c) : ∃ w', step w c = some w' := by
  cases c with
  | remove fd => exact ⟨_, rfl⟩
  | insert fd path flags offset op =>
    obtain ⟨hfd, hcase⟩ := hc
    rw [step, insertFd_eq w hfd, recordAfter]
    obtain ⟨-, hpath⟩ | ⟨-, rfl, hm, -⟩ := hcase
    · simp [hpath]
    · obtain ⟨r, hr⟩ := Maps.mem_iff_exists.mp hm
      have hne : r.ops ≠ [] := by
        intro hnil
        have hopens := (h.good fd r hr).opens
        rw [hnil] at hopens
        cases hopens
      rw [getD_of_some hr]
      split
      · exact ⟨_, rfl⟩
      · rw [if_neg (not_not.mpr rfl)]
        split
        · exact ⟨_, rfl⟩
        · exact ⟨_, rfl⟩

/-! ### A lineage -/

/-- What the process `p` has of the calls made so far: the table that it would have without the
migrations, and the files of the guest. `own` are its descriptors as it was started. -/
structure Carried (rt : GuestRuntime σ) (own : σ) (calls : List FdCall) (p : Process σ Sock)
    (plain : Wamr Sock) : Prop where
  policy : p.wamr.policy = "compression"
  same_policy : p.wamr.policy = plain.policy
  same : ∀ fd : ℤ, p.wamr.fdMap[fd]? = plain.fdMap[fd]?
  refines : Refines p.wamr (opened calls)
  files : ∀ fd f, opened calls fd = some f → rt.files p.fds fd = some f
  own : ∀ fd, (∀ c ∈ calls, c.fd ≠ fd) → rt.files p.fds fd = rt.files own fd

variable {rt : GuestRuntime σ} {own : σ} {calls : List FdCall} {p : Process σ Sock}
  {plain : Wamr Sock}

theorem opened_append (calls : List FdCall) (c : FdCall) :
    opened (calls ++ [c]) = (opened calls).after c := by
  rw [opened, List.foldl_append]
  rfl

theorem after_of_ne (t : FileTable) (c : FdCall) {fd : ℤ} (h : c.fd ≠ fd) :
    t.after c fd = t fd := by
  cases c with
  | insert fd' path flags offset op =>
    rw [FileTable.after]
    split
    · exact Function.update_of_ne (Ne.symm h) _ _
    · exact Function.update_of_ne (Ne.symm h) _ _
  | remove fd' => exact Function.update_of_ne (Ne.symm h) _ _

/-- Tables that agree on the files of the guest agree on them after a call. -/
theorem after_congr {t u : FileTable} (h : ∀ fd f, t fd = some f → u fd = some f) (c : FdCall) :
    ∀ fd f, t.after c fd = some f → u.after c fd = some f := by
  intro fd f hf
  by_cases hne : c.fd = fd
  · cases c with
    | insert fd' path flags offset op =>
      obtain rfl : fd' = fd := hne
      rw [FileTable.after] at hf ⊢
      by_cases hop : op = .fopen
      · rw [if_pos hop, Function.update_self] at hf ⊢
        exact hf
      · rw [if_neg hop, Function.update_self] at hf ⊢
        obtain ⟨g, hg, rfl⟩ := Option.map_eq_some_iff.mp hf
        rw [h fd' g hg, Option.map_some]
    | remove fd' =>
      obtain rfl : fd' = fd := hne
      rw [FileTable.after, Function.update_self] at hf
      cases hf
  · rw [after_of_ne t c hne] at hf
    rw [after_of_ne u c hne]
    exact h fd f hf

theorem Carried.call (h : Carried rt own calls p plain) {c : FdCall} (hc : Reported p.wamr c) :
    ∃ q plain', fileStep rt p (.call c) = some q ∧ step plain c = some plain' ∧
      Carried rt own (calls ++ [c]) q plain' := by
  obtain ⟨w, hw⟩ := step_of_reported h.refines hc
  obtain ⟨plain', hplain, hpol, hpol', hsame⟩ := step_congr h.same_policy h.same hw
  have hne : p.wamr.policy ≠ "replay" := by rw [h.policy]; decide
  refine ⟨⟨rt.guest p.fds c, w⟩, plain', by rw [fileStep, hw, Option.map_some], hplain, ?_⟩
  exact {
    policy := hpol.trans h.policy
    same_policy := by rw [hpol, hpol', h.same_policy]
    same := hsame
    refines := by
      rw [opened_append]
      exact (refines_step h.refines hne hc hw).1
    files := by
      rw [opened_append, rt.files_guest]
      exact after_congr h.files c
    own := fun fd hfd => by
      rw [rt.files_guest, after_of_ne _ c (hfd c (by simp))]
      exact h.own fd fun d hd => hfd d (List.mem_append_left _ hd) }

theorem foldl_after_of_ne (t : FileTable) {fd : ℤ} (h : ∀ c ∈ calls, c.fd ≠ fd) :
    calls.foldl FileTable.after t fd = t fd := by
  induction calls generalizing t with
  | nil => rfl
  | cons c calls ih =>
    rw [List.foldl_cons, ih _ fun d hd => h d (List.mem_cons_of_mem c hd)]
    exact after_of_ne t c (h c List.mem_cons_self)

/-- The restored process has the table of the one that was checkpointed. -/
theorem Carried.hop (h : Carried rt own calls p plain) (fds : σ) :
    Carried rt fds calls (hop rt fds p.wamr) plain := by
  have hmem : ∀ fd r, (fd, r) ∈ (dumpFds { p.wamr with shouldSnapshot := true }).toList ↔
      p.wamr.fdMap[fd]? = some r := fun fd r => mem_dumped rfl
  have hgood : ∀ e ∈ (dumpFds { p.wamr with shouldSnapshot := true }).toList, e.2.Good :=
    fun e he => h.refines.good e.1 e.2 ((hmem e.1 e.2).mp he)
  have hkeys := Maps.keys_ne (dumpFds { p.wamr with shouldSnapshot := true })
  obtain ⟨hpolicy, hset, hkeep⟩ := fdMap_restoreFds rt.toFdRuntime
    (p := (fds, (constructed : Wamr Sock))) rfl hkeys hgood
  obtain ⟨hfiles, hother⟩ := files_restoreFds rt.toFdRuntime
    (p := (fds, (constructed : Wamr Sock))) rfl hkeys hgood
  have hnone : ∀ fd, p.wamr.fdMap[fd]? = none →
      ∀ e ∈ (dumpFds { p.wamr with shouldSnapshot := true }).toList, e.1 ≠ fd := by
    rintro fd hfd e he rfl
    rw [(hmem e.1 e.2).mp he] at hfd
    cases hfd
  have hsame : ∀ fd : ℤ, (Files.hop rt fds p.wamr).wamr.fdMap[fd]? = p.wamr.fdMap[fd]? := by
    intro fd
    cases hr : p.wamr.fdMap[fd]? with
    | some r => exact hset (fd, r) ((hmem fd r).mpr hr)
    | none => exact (hkeep fd (hnone fd hr)).trans Std.TreeMap.getElem?_emptyc
  exact {
    policy := hpolicy
    same_policy := hpolicy.trans (h.policy.symm.trans h.same_policy)
    same := fun fd => (hsame fd).trans (h.same fd)
    refines := ⟨fun fd => by rw [hsame]; exact h.refines.file fd,
      fun fd r hr => h.refines.good fd r (by rw [← hsame]; exact hr)⟩
    files := fun fd f hf => by
      rw [← h.refines.file fd] at hf
      obtain ⟨r, hr, rfl⟩ := Option.map_eq_some_iff.mp hf
      exact hfiles (fd, r) ((hmem fd r).mpr hr)
    own := fun fd hfd => by
      have hr : p.wamr.fdMap[fd]? = none := by
        rw [← Option.map_eq_none_iff (f := FdRecord.file), h.refines.file fd]
        exact foldl_after_of_ne _ hfd
      exact hother fd (hnone fd hr) }

theorem Carried.run {events : List (FileEvent σ)} (h : Carried rt own calls p plain)
    (hok : Run.Along (fileStep rt) FileEvent.Reported p events) :
    ∃ q plain', Run.exec (fileStep rt) p events = some q ∧
      Run.exec step plain (guestCalls events) = some plain' ∧
      Carried rt (lastFds own events) (calls ++ guestCalls events) q plain' := by
  induction events generalizing own calls p plain with
  | nil =>
    refine ⟨p, plain, rfl, rfl, ?_⟩
    rwa [guestCalls, List.append_nil]
  | cons e events ih =>
    cases e with
    | call c =>
      obtain ⟨q, plain', hq, hplain, hcarried⟩ := h.call hok.1
      obtain ⟨r, last, hr, hlast, hend⟩ := ih hcarried (hok.2 q hq)
      refine ⟨r, last, by rw [Run.exec_cons, hq]; exact hr, ?_, ?_⟩
      · rw [guestCalls, Run.exec_cons, hplain]
        exact hlast
      · rwa [List.append_assoc] at hend
    | hop fds => exact ih (h.hop fds) (hok.2 _ rfl)

def Table.after (t : Table) : FdCall → Table
  | .insert fd path _ offset op =>
    if op = .fopen then t.set fd (some ⟨path, 0⟩)
    else t.set fd ((t.1 fd).map fun f => { f with pos := offset })
  | .remove fd => t.set fd none

/-- The descriptors of a process, which carries out the calls of the guest as well. -/
def tableGuest : GuestRuntime Table where
  toFdRuntime := tableRuntime
  guest := Table.after
  files_guest t c := by
    cases c with
    | insert fd path flags offset op =>
      by_cases hop : op = .fopen
      · rw [Table.after, FileTable.after, if_pos hop, if_pos hop]
        rfl
      · rw [Table.after, FileTable.after, if_neg hop, if_neg hop]
        rfl
    | remove fd => rfl

/-- The file `a` is opened and read in the first process, read on in the second, where `b` is
opened too, and migrates once more. -/
def readerEvents : List (FileEvent Table) :=
  [.call (.insert 4 "a" 0 0 .fopen), .call (.insert 4 "" 0 7 .fread), .hop freshTable,
    .call (.insert 5 "b" 0 0 .fopen), .call (.insert 4 "" 0 12 .fread), .hop freshTable]

end MVVM.Files
