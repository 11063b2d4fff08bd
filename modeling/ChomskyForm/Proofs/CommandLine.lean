import ChomskyForm.CommandLine.Arguments
import ChomskyForm.Proofs.Outcome

/-!
# One flag more on a command line

A command line that does not set a flag is still read when the flag is set before all of its
arguments, and nothing else changes (`ofArguments_cons`).  Every function of the reader
looks at the flags only to refuse one that is set twice.
-/

namespace ChomskyForm

namespace CommandLine

namespace Scan

variable {f : Flag} {s t : Scan} {F : Scan → Except Stop Scan}

/-- The scan with one more flag, set before all others. -/
def withFlag (f : Flag) (s : Scan) : Scan := { s with flags := s.flags ++ [f] }

@[simp] theorem file_withFlag : (s.withFlag f).file = s.file := rfl

@[simp] theorem pending_withFlag : (s.withFlag f).pending = s.pending := rfl

@[simp] theorem escaped_withFlag : (s.withFlag f).escaped = s.escaped := rfl

/-- Where `F` comes to an end without setting `f`, it does the same when `f` has been set before. -/
def Spares (f : Flag) (F : Scan → Except Stop Scan) : Prop :=
  ∀ ⦃s t⦄, F s = .ok t → f ∉ t.flags → f ∉ s.flags ∧ F (s.withFlag f) = .ok (t.withFlag f)

theorem spares_error (stop : Stop) : Spares f fun _ => .error stop := by
  intro s t h
  cases h

theorem spares_ok {g : Scan → Scan} (hflags : ∀ s, (g s).flags = s.flags)
    (hwith : ∀ s, g (s.withFlag f) = (g s).withFlag f) : Spares f fun s => .ok (g s) := by
  intro s t h hf
  cases h
  exact ⟨hflags s ▸ hf, congrArg _ (hwith s)⟩

theorem Spares.bind {G : Scan → Except Stop Scan} (hF : Spares f F) (hG : Spares f G) :
    Spares f fun s => F s >>= G := by
  intro s t h hf
  obtain ⟨u, hu, ht⟩ := exists_of_bind_eq_ok h
  obtain ⟨hfu, htwith⟩ := hG ht hf
  obtain ⟨hfs, huwith⟩ := hF hu hfu
  refine ⟨hfs, ?_⟩
  show F (s.withFlag f) >>= G = _
  rw [huwith]
  exact htwith

theorem Spares.ite {c : Scan → Prop} [DecidablePred c] {G : Scan → Except Stop Scan}
    (hc : ∀ s, c (s.withFlag f) ↔ c s) (hF : Spares f F) (hG : Spares f G) :
    Spares f fun s => if c s then F s else G s := by
  intro s t h hf
  dsimp only at h ⊢
  by_cases hs : c s
  · rw [if_pos hs] at h
    rw [if_pos ((hc s).mpr hs)]
    exact hF h hf
  · rw [if_neg hs] at h
    rw [if_neg (mt (hc s).mp hs)]
    exact hG h hf

theorem spares_setStart (text : List Char) : Spares f (setStart · text) := by
  refine Spares.ite (fun _ => Iff.rfl) (spares_error _) ?_
  cases readStart text with
  | error fault => exact spares_error _
  | ok symbol => exact spares_ok (fun _ => rfl) fun _ => rfl

theorem spares_settle : Spares f settle := by
  intro s t h hf
  unfold settle at h ⊢
  simp only [withFlag]
  split at h
  · cases h
    exact ⟨hf, rfl⟩
  · cases h
  · exact spares_setStart _ h hf
  · cases h
  · cases h
    exact ⟨hf, rfl⟩

/-- Only a flag that is set again is refused. -/
theorem spares_setFlag (k : Flag) : Spares f fun s =>
    if k ∈ s.flags then .error .repeatedOption else .ok { s with flags := k :: s.flags } := by
  intro s t h hf
  dsimp only at h ⊢
  split at h
  · cases h
  · rename_i hk
    cases h
    obtain ⟨hne, hfs⟩ := not_or.mp (mt List.mem_cons.mpr hf)
    have hkwith : k ∉ (s.withFlag f).flags := by
      intro hmem
      rcases List.mem_append.mp hmem with hmem | hmem
      · exact hk hmem
      · exact hne (List.mem_singleton.mp hmem).symm
    rw [if_neg hkwith]
    exact ⟨hfs, rfl⟩

theorem spares_take (o : Switch) : Spares f (take · o) := by
  refine spares_settle.bind ?_
  cases o with
  | start => exact spares_ok (fun _ => rfl) fun _ => rfl
  | flag k => exact spares_setFlag k
  | help => exact spares_error _
  | version => exact spares_error _

theorem spares_takeStart (text : List Char) : Spares f (takeStart · text) :=
  spares_settle.bind (spares_setStart text)

theorem spares_takeShort (letters : List Char) : Spares f (takeShort letters) := by
  induction letters with
  | nil => exact spares_ok (fun _ => rfl) fun _ => rfl
  | cons c rest ih =>
    simp only [takeShort]
    split
    · exact spares_error _
    · exact spares_takeStart _
    · exact spares_takeStart _
    · exact (spares_take _).bind ih

theorem spares_takeLong (name : List Char) (value : Option (List Char)) :
    Spares f (takeLong · name value) := by
  simp only [takeLong]
  split
  · exact spares_error _
  · exact spares_takeStart _
  · exact spares_error _
  · exact spares_take _

theorem spares_takeFile (name : List Char) : Spares f (takeFile · name) := by
  have hpend : Spares f fun s => s.settle >>= fun s => .ok { s with pending := some (.file name) } :=
    spares_settle.bind (spares_ok (fun _ => rfl) fun _ => rfl)
  intro s t h hf
  simp only [takeFile, file_withFlag, pending_withFlag] at h ⊢
  split at h
  · cases h
  · cases h
  · exact hpend h hf

theorem spares_takeArgument (argument : List Char) : Spares f (takeArgument · argument) := by
  refine Spares.ite (fun _ => Iff.rfl) (spares_takeFile _) ?_
  intro s t h hf
  simp only [pending_withFlag] at h ⊢
  split at h
  · cases h
    exact ⟨hf, rfl⟩
  · exact spares_takeLong _ _ h hf
  · exact spares_takeShort _ h hf
  · cases h
    exact ⟨hf, rfl⟩
  · exact spares_takeFile _ h hf

theorem spares_foldlM_takeArgument (arguments : List (List Char)) :
    Spares f (arguments.foldlM takeArgument ·) := by
  induction arguments with
  | nil => exact spares_ok (fun _ => rfl) fun _ => rfl
  | cons argument arguments ih =>
    simp only [List.foldlM_cons]
    exact (spares_takeArgument argument).bind ih

theorem finish_eq_ok_iff {settings : Settings} : s.finish = .ok settings ↔
    ∃ t file, s.settle = .ok t ∧ t.file = some file ∧ settings = .ofFlags file t.start t.flags := by
  unfold finish
  constructor
  · intro h
    obtain ⟨t, ht, hend⟩ := exists_of_bind_eq_ok h
    cases hfile : t.file with
    | none =>
      rw [hfile] at hend
      cases hend
    | some file =>
      rw [hfile] at hend
      cases hend
      exact ⟨t, file, ht, hfile, rfl⟩
  · rintro ⟨t, file, ht, hfile, rfl⟩
    obtain ⟨_, start, flags, pending, escaped⟩ := t
    cases hfile
    rw [ht]
    rfl

end Scan

variable {arguments : List String} {s : Settings}

/-- A flag that a command line does not set can be set before its first argument. -/
theorem ofArguments_cons (h : ofArguments arguments = .ok s) :
    ∃ file start flags, s = .ofFlags file start flags ∧
      ∀ f spelling, f ∉ flags → Scan.takeArgument {} (String.toList spelling) = .ok { flags := [f] } →
        ofArguments (spelling :: arguments) = .ok (.ofFlags file start (flags ++ [f])) := by
  obtain ⟨t, ht, hfinish⟩ := exists_of_bind_eq_ok h
  obtain ⟨u, file, hu, hfile, rfl⟩ := Scan.finish_eq_ok_iff.mp hfinish
  refine ⟨file, u.start, u.flags, rfl, fun f spelling hf hspelling => ?_⟩
  obtain ⟨hft, huwith⟩ := Scan.spares_settle hu hf
  obtain ⟨_, htwith⟩ := Scan.spares_foldlM_takeArgument _ ht hft
  have hread : ((spelling :: arguments).map String.toList).foldlM Scan.takeArgument {} =
      .ok (t.withFlag f) := by
    rw [List.map_cons, List.foldlM_cons, hspelling]
    exact htwith
  unfold ofArguments
  rw [hread]
  exact Scan.finish_eq_ok_iff.mpr ⟨u.withFlag f, file, huwith, hfile, rfl⟩

/-- So the final grammar alone can be asked for in addition to everything else. -/
theorem ofArguments_finalOnly_cons (h : ofArguments arguments = .ok s) (hs : s.finalOnly = false)
    {spelling : String} (hspelling : spelling = "-f" ∨ spelling = "--final-only") :
    ofArguments (spelling :: arguments) = .ok { s with finalOnly := true } := by
  obtain ⟨file, start, flags, rfl, hcons⟩ := ofArguments_cons h
  have hflag : Flag.finalOnly ∉ flags := of_decide_eq_false hs
  have htake : Scan.takeArgument {} spelling.toList = .ok { flags := [.finalOnly] } := by
    rcases hspelling with rfl | rfl
    · decide
    · decide
  rw [hcons _ _ hflag htake]
  simp [Settings.ofFlags]

end CommandLine

end ChomskyForm
