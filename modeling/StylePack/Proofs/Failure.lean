import StylePack.Build
import StylePack.Download
import StylePack.Proofs.Generate

/-! What fails leaves the disk as it was, unless the disk itself refuses something. An operation
reads first and writes then: up to its first write it leaves the disk alone (`Reads`), and from
there on nothing fails for another reason than a refusal (`Writes`). -/
namespace StylePack
variable {α β ρ : Type}

namespace Action
variable {act : Action α} {f : α → Action β} {s s' : Session} {result : Except Failure α}

/-- An action that leaves the disk as it is, however it ends. -/
structure Reads (act : Action α) : Prop where
  disk_eq : ∀ {s result s'}, runOn act s = (result, s') → s'.disk = s.disk

/-- An action that fails only if the disk refuses something. -/
structure Writes (act : Action α) : Prop where
  refused : ∀ {s failure s'}, runOn act s = (.error failure, s') →
    ∃ message, failure = .disk message

/-- An action that leaves the disk as it was if it fails for another reason than a refusal. -/
structure Spares (act : Action α) : Prop where
  disk_eq_or_refused : ∀ {s failure s'}, runOn act s = (.error failure, s') →
    s'.disk = s.disk ∨ ∃ message, failure = .disk message

theorem Reads.spares (h : Reads act) : Spares act := ⟨fun hrun => Or.inl (h.disk_eq hrun)⟩

theorem Writes.spares (h : Writes act) : Spares act := ⟨fun hrun => Or.inr (h.refused hrun)⟩

/-- An action followed by another one fails as the one or ends as the other. -/
theorem runOn_bind_cases {result : Except Failure β} (h : runOn (act >>= f) s = (result, s')) :
    (∃ failure, runOn act s = (.error failure, s') ∧ result = .error failure) ∨
      ∃ a t, runOn act s = (.ok a, t) ∧ runOn (f a) t = (result, s') := by
  rw [runOn_bind] at h
  cases hact : runOn act s with
  | mk first t =>
    rw [hact] at h
    cases first with
    | error failure =>
      cases h
      exact Or.inl ⟨failure, rfl, rfl⟩
    | ok a => exact Or.inr ⟨a, t, rfl, h⟩

theorem Reads.bind (h : Reads act) (hf : ∀ a, Reads (f a)) : Reads (act >>= f) where
  disk_eq hrun := by
    rcases runOn_bind_cases hrun with ⟨failure, hact, -⟩ | ⟨a, t, hact, hnext⟩
    · exact h.disk_eq hact
    · rw [(hf a).disk_eq hnext, h.disk_eq hact]

theorem Writes.bind (h : Writes act) (hf : ∀ a, Writes (f a)) : Writes (act >>= f) where
  refused hrun := by
    rcases runOn_bind_cases hrun with ⟨failure, hact, hfailure⟩ | ⟨a, t, -, hnext⟩
    · cases hfailure
      exact h.refused hact
    · exact (hf a).refused hnext

/-- What goes on after reading spares the disk if the rest does. -/
theorem Reads.bind_spares (h : Reads act) (hf : ∀ a, Spares (f a)) : Spares (act >>= f) where
  disk_eq_or_refused hrun := by
    rcases runOn_bind_cases hrun with ⟨failure, hact, -⟩ | ⟨a, t, hact, hnext⟩
    · exact Or.inl (h.disk_eq hact)
    · rw [← h.disk_eq hact]
      exact (hf a).disk_eq_or_refused hnext

/-- Nothing is lost by writing on. -/
theorem Spares.bind (h : Spares act) (hf : ∀ a, Writes (f a)) : Spares (act >>= f) where
  disk_eq_or_refused hrun := by
    rcases runOn_bind_cases hrun with ⟨failure, hact, hfailure⟩ | ⟨a, t, -, hnext⟩
    · cases hfailure
      exact h.disk_eq_or_refused hact
    · exact Or.inr ((hf a).refused hnext)

theorem reads_pure (a : α) : Reads (pure a) := ⟨fun h => by cases h; rfl⟩

theorem writes_pure (a : α) : Writes (pure a) := ⟨fun h => by cases h⟩

theorem reads_throw (failure : Failure) : Reads (throw failure : Action α) :=
  ⟨fun h => by cases h; rfl⟩

theorem reads_disk : Reads disk := ⟨fun h => by cases h; rfl⟩

theorem reads_say (e : Console.Event) : Reads (say e) := ⟨fun h => by cases h; rfl⟩

theorem writes_say (e : Console.Event) : Writes (say e) := ⟨fun h => by cases h⟩

theorem reads_sayAll (es : List Console.Event) : Reads (sayAll es) := ⟨fun h => by cases h; rfl⟩

theorem reads_answer (cause : ρ → Failure) (result : Except ρ α) :
    Reads (answer cause result) := by
  cases result with
  | ok a => exact reads_pure a
  | error r => exact reads_throw (cause r)

/-- A change of the disk fails only if the disk refuses it. -/
theorem writes_attempt (message : ρ → String) (change : Disk → Except ρ α × Disk) :
    Writes (attempt (fun r => .disk (message r)) change) where
  refused {s failure s'} h := by
    cases hchange : change s.disk with
    | mk result d =>
      cases result with
      | ok a =>
        rw [runOn_attempt_ok _ hchange] at h
        cases h
      | error r =>
        rw [runOn_attempt_error _ hchange] at h
        cases h
        exact ⟨message r, rfl⟩

section
variable {c : Prop} [Decidable c] {next : Unit → Action β} (failure : Failure)

theorem Reads.unless (h : Reads (next ())) :
    Reads (if c then throw failure >>= next else next ()) := by
  split
  · exact (reads_throw failure).bind fun _ => h
  · exact h

/-- What goes on where a check does not fail. -/
theorem Spares.unless (h : Spares (next ())) :
    Spares (if c then throw failure >>= next else next ()) := by
  split
  · exact (reads_throw failure).bind_spares fun _ => h
  · exact h

end

theorem Reads.foldlM {g : β → α → Action β} (h : ∀ b a, Reads (g b a)) (as : List α) (b : β) :
    Reads (as.foldlM g b) := by
  induction as generalizing b with
  | nil => exact reads_pure b
  | cons a as ih =>
    rw [List.foldlM_cons]
    exact (h b a).bind ih

theorem Writes.mapM {g : α → Action β} (h : ∀ a, Writes (g a)) (as : List α) :
    Writes (as.mapM g) := by
  induction as with
  | nil => exact writes_pure []
  | cons a as ih =>
    rw [List.mapM_cons]
    exact (h a).bind fun b => ih.bind fun bs => writes_pure (b :: bs)

end Action
open StylePack.Action

theorem Store.install_spares (folder : Path) (text : String) : Spares (install folder text) := by
  unfold install
  cases Descriptor.validate text with
  | error defect => exact (reads_throw _).spares
  | ok p => exact (writes_attempt _ _).spares

theorem Store.remove_spares (folder : Path) (name : String) : Spares (remove folder name) := by
  unfold remove
  apply Spares.unless
  apply Spares.unless
  apply reads_disk.bind_spares
  intro d
  apply Spares.unless
  apply (writes_attempt _ _).spares.bind
  intro _
  exact (writes_say _).bind fun _ => writes_pure _

theorem Download.fetch_reads (url : String) (exchange : Exchange) (debug : Bool) :
    Reads (fetch url exchange debug) := by
  unfold fetch
  cases exchange with
  | nested => exact reads_throw _
  | failed reason =>
    exact (reads_say _).bind fun _ => (reads_sayAll _).bind fun _ => reads_throw _
  | reply r =>
    apply (reads_say _).bind
    intro _
    apply Reads.unless
    split
    · exact (reads_sayAll _).bind fun _ => (reads_throw _).bind fun _ =>
        (reads_sayAll _).bind fun _ => reads_pure _
    · exact (reads_sayAll _).bind fun _ => reads_pure _

theorem Download.add_spares (folder : Path) (url : String) (exchange : Exchange) (debug : Bool) :
    Spares (add folder url exchange debug) := by
  apply (fetch_reads url exchange debug).bind_spares
  intro text
  apply (Store.install_spares folder text).bind
  intro path
  exact (writes_say _).bind fun _ => writes_pure path

theorem Generate.addFile_reads (debug : Bool) (packages : OrderedMap String Descriptor)
    (file : Path) : Reads (addFile debug packages file) :=
  reads_disk.bind fun _ => (reads_answer _ _).bind fun _ =>
    (reads_sayAll _).bind fun _ => reads_pure _

theorem Generate.writePackage_writes (out : Path) (p : Descriptor) : Writes (writePackage out p) :=
  (writes_say _).bind fun _ => writes_attempt _ _

/-- All stylesheets are read before the first package is written. -/
theorem Generate.generate_spares (paths : List Path) (out : Path) (debug : Bool) :
    Spares (generate paths out debug) := by
  apply reads_disk.bind_spares
  intro d
  apply Spares.unless
  apply (Reads.foldlM (addFile_reads debug) (collect d paths) .empty).bind_spares
  intro packages
  apply Spares.unless
  apply ((Writes.mapM (writePackage_writes out) packages.values).bind _).spares
  intro written
  exact (writes_say _).bind fun _ => writes_pure written

theorem Build.expanded_reads (input : Path) (options : Options) (debug : Bool) :
    Reads (expanded input options debug) := by
  apply reads_disk.bind
  intro d
  apply (reads_answer _ _).bind
  intro css
  apply (reads_sayAll _).bind
  intro _
  have hrest : Reads (do
      let built := transformWith (← Action.disk) options css
      sayAll (built.2.diagnostics.map event)
      return built) :=
    reads_disk.bind fun _ => (reads_sayAll _).bind fun _ => reads_pure _
  split
  · exact (reads_sayAll _).bind fun _ => hrest
  · exact hrest

theorem Build.build_spares (input : Path) (out : Option Path) (options : Options) (debug : Bool) :
    Spares (build input out options debug) := by
  apply (expanded_reads input options debug).bind_spares
  rintro ⟨css, report⟩
  have hrest : Writes (do
      Action.say (summary input out report)
      return report) := (writes_say _).bind fun _ => writes_pure report
  cases out with
  | none => exact ((writes_say _).bind fun _ => hrest).spares
  | some p => exact ((writes_attempt _ _).bind fun _ => hrest).spares

/-- What is asked of the disk: a package is put in, fetched or taken out, packages are made from
stylesheets, and a stylesheet is expanded or built. -/
inductive Operation : {α : Type} → Action α → Prop
  | install (folder : Path) (text : String) : Operation (Store.install folder text)
  | add (folder : Path) (url : String) (exchange : Exchange) (debug : Bool) :
    Operation (Download.add folder url exchange debug)
  | remove (folder : Path) (name : String) : Operation (Store.remove folder name)
  | generate (paths : List Path) (out : Path) (debug : Bool) :
    Operation (Generate.generate paths out debug)
  | expand (input : Path) (options : Build.Options) (debug : Bool) :
    Operation (Build.expanded input options debug)
  | build (input : Path) (out : Option Path) (options : Build.Options) (debug : Bool) :
    Operation (Build.build input out options debug)

theorem Operation.spares {act : Action α} (h : Operation act) : Spares act := by
  cases h with
  | install folder text => exact Store.install_spares folder text
  | add folder url exchange debug => exact Download.add_spares folder url exchange debug
  | remove folder name => exact Store.remove_spares folder name
  | generate paths out debug => exact Generate.generate_spares paths out debug
  | expand input options debug => exact (Build.expanded_reads input options debug).spares
  | build input out options debug => exact Build.build_spares input out options debug

namespace Generate
variable {file : Path} {files paths : List Path} {s : Session} {why : Refusal}

/-- A stylesheet that cannot be read ends the reading. -/
theorem runOn_addFile_error (debug : Bool) (packages : OrderedMap String Descriptor)
    (h : s.disk.readText file = .error why) :
    runOn (addFile debug packages file) s = (.error (.stylesheet file.text why.message), s) := by
  rw [addFile, runOn_bind_ok (runOn_disk s), h]
  rfl

/-- Of some stylesheets the first that cannot be read ends the reading. -/
theorem runOn_addFiles_error (debug : Bool) (packages : OrderedMap String Descriptor)
    (h : ∃ file ∈ files, ∃ why, s.disk.readText file = .error why) :
    ∃ file ∈ files, ∃ why said, s.disk.readText file = .error why ∧
      runOn (files.foldlM (addFile debug) packages) s =
        (.error (.stylesheet file.text why.message), ⟨s.disk, said⟩) := by
  induction files generalizing packages s with
  | nil =>
    obtain ⟨file, hfile, -⟩ := h
    exact absurd hfile List.not_mem_nil
  | cons first files ih =>
    rw [List.foldlM_cons]
    cases hfirst : s.disk.readText first with
    | error why =>
      refine ⟨first, List.mem_cons_self, why, s.said, hfirst, ?_⟩
      rw [runOn_bind, runOn_addFile_error debug packages hfirst]
    | ok text =>
      let source : Source := ⟨first, text⟩
      have hsource : s.disk.readText source.path = .ok source.text := hfirst
      obtain ⟨said, hadd⟩ := runOn_addFile debug packages hsource
      have hrest : ∃ file ∈ files, ∃ why, s.disk.readText file = .error why := by
        obtain ⟨file, hfile, why, hwhy⟩ := h
        rcases List.mem_cons.mp hfile with rfl | hfile
        · rw [hfirst] at hwhy
          cases hwhy
        · exact ⟨file, hfile, why, hwhy⟩
      obtain ⟨file, hfile, why, said, hwhy, hrun⟩ := ih (s := ⟨s.disk, said⟩) _ hrest
      refine ⟨file, List.mem_cons_of_mem first hfile, why, said, hwhy, ?_⟩
      rw [runOn_bind_ok hadd]
      exact hrun

theorem perform_generate_error {d : Disk}
    (h : ∃ file ∈ collect d paths, ∃ why, d.readText file = .error why) (out : Path)
    (debug : Bool) :
    ∃ file ∈ collect d paths, ∃ why said, d.readText file = .error why ∧
      (generate paths out debug).perform d =
        (.error (.stylesheet file.text why.message), ⟨d, said⟩) := by
  obtain ⟨file, hfile, why, said, hwhy, hrun⟩ :=
    runOn_addFiles_error (s := ⟨d, []⟩) debug .empty h
  have hsome : (collect d paths).isEmpty = false := by
    rw [List.isEmpty_eq_false_iff]
    exact List.ne_nil_of_mem hfile
  refine ⟨file, hfile, why, said, hwhy, ?_⟩
  rw [generate, perform_eq, runOn_bind_ok (runOn_disk _)]
  simp only [hsome, Bool.false_eq_true, if_false]
  rw [runOn_bind, hrun]

end Generate

/-- An operation that fails for any other reason than a refusal of the disk has changed nothing on
it. So it is where one of the stylesheets that packages are made from cannot be read, whichever it
is. -/
theorem disk_eq_of_failure :
    (∀ {α : Type} {act : Action α}, Operation act → ∀ {d : Disk} {failure : Failure} {s : Session},
      act.perform d = (.error failure, s) → (∀ message, failure ≠ .disk message) → s.disk = d) ∧
    ∀ {d : Disk} {paths : List Path},
      (∃ file ∈ Generate.collect d paths, ∃ why, d.readText file = .error why) →
      ∀ (out : Path) (debug : Bool), ∃ file ∈ Generate.collect d paths, ∃ why said,
        d.readText file = .error why ∧ (Generate.generate paths out debug).perform d =
          (.error (.stylesheet file.text why.message), ⟨d, said⟩) := by
  refine ⟨fun hop d failure s hperform hfailure => ?_, Generate.perform_generate_error⟩
  rcases hop.spares.disk_eq_or_refused hperform with hdisk | ⟨message, hrefused⟩
  · exact hdisk
  · exact absurd hrefused (hfailure message)

/-- Two stylesheets, of which the second is no text. -/
def halfText : Disk :=
  ⟨.folder [("a.css", .file ".b\x7btop:0\x7d".toUTF8), ("b.css", .file ⟨#[0xff]⟩)], []⟩

theorem disk_eq_of_failure_second_file :
    Generate.collect halfText [⟨"a.css"⟩, ⟨"b.css"⟩] = [⟨"a.css"⟩, ⟨"b.css"⟩] ∧
    (∃ s, (Build.build ⟨"b.css"⟩ (some ⟨"dist/b.css"⟩) {} false).perform halfText =
      (.error (.stylesheet "b.css" "stream did not contain valid UTF-8"), s) ∧
        s.disk = halfText) ∧
    ∃ said, (Generate.generate [⟨"a.css"⟩, ⟨"b.css"⟩] ⟨"out"⟩ false).perform halfText =
      (.error (.stylesheet "b.css" "stream did not contain valid UTF-8"), ⟨halfText, said⟩) := by
  have hcollect : Generate.collect halfText [⟨"a.css"⟩, ⟨"b.css"⟩] = [⟨"a.css"⟩, ⟨"b.css"⟩] := by
    decide +kernel
  have hfirst : halfText.readText ⟨"a.css"⟩ = .ok ".b\x7btop:0\x7d" := by rfl
  have hsecond : halfText.readText ⟨"b.css"⟩ = .error .notText := by rfl
  have hbuild : ((Build.build ⟨"b.css"⟩ (some ⟨"dist/b.css"⟩) {} false).perform halfText).1 =
      .error (.stylesheet "b.css" "stream did not contain valid UTF-8") := by rfl
  refine ⟨hcollect, ⟨_, Prod.ext hbuild rfl, ?_⟩, ?_⟩
  · exact disk_eq_of_failure.1 (.build ..) (Prod.ext hbuild rfl) fun _ => Failure.noConfusion
  obtain ⟨file, hfile, why, said, hwhy, hperform⟩ := disk_eq_of_failure.2
    ⟨⟨"b.css"⟩, by rw [hcollect]; simp, .notText, hsecond⟩ ⟨"out"⟩ false
  rw [hcollect, List.mem_pair] at hfile
  rcases hfile with rfl | rfl
  · rw [hfirst] at hwhy
    cases hwhy
  · rw [hsecond] at hwhy
    cases hwhy
    exact ⟨said, hperform⟩

end StylePack
