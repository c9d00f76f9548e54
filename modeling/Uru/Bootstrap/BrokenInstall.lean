import Uru.Bootstrap.LlamaServer

/-!
# Which installs are reused

An install is judged by two file names. Over all runs from an empty runtime
directory, every install that some later run would return without a download is
a complete and executable build of the wanted variant, if and only if no run
ends while the root holds a `llama-server` that is incomplete or cannot be
executed, unless it shows a Vulkan backend that this host no longer wants.
-/

set_option autoImplicit false

namespace Uru.Bootstrap

open Uru.Lib.Machine

variable {File : Type} [DecidableEq File] (R : Release File) (host : Host) (unpacked : Bool)

def Complete (build : LlamaVariant) (root : Option (Dir File)) : Prop :=
  ∃ d, root = some d ∧ d.files = R.files build ∧ d.executable = true

/-- An idle plugin reuses complete installs of the wanted variant only, and
reuses what its last completed run left when the same GPU is detected. -/
structure Boots (s : Runtime File) : Prop where
  complete : ∀ c gpu, s.point = .idle c → reuses R host s.disk gpu = true →
    Complete R (desired host gpu s.disk.vulkanMarker) s.disk.root
  converged : ∀ gpu, s.point = .idle (some gpu) → reuses R host s.disk gpu = true

def VulkanRuledOut (marker : Bool) : Prop :=
  marker = true ∨ host.platform = .darwin ∨ host.arm64 = true

/-- A `llama-server` in the root belongs to a build that is as it was packed and
executable, or shows a Vulkan backend that no run wants. -/
def Whole (disk : Disk File) : Prop :=
  ∀ d, disk.root = some d → R.server ∈ d.files →
    d.executable = true ∧ (∃ build, d.files = R.files build) ∨
      d.isVulkan R = true ∧ VulkanRuledOut host disk.vulkanMarker

/-- No step fails and no process is killed but in such a state. -/
def EndsWhole (s : Runtime File) (e : Event File) : Prop := e = .abort → Whole R host s.disk

variable {R host unpacked}

theorem desired_none (marker : Bool) : desired host .none marker = .cpu := by
  have h : variantForAsset host .none = .cpu := by simp [variantForAsset, gpuCapable]
  simp [desired, h]

theorem desired_marked (gpu : GpuVendor) : desired host gpu true = .cpu := by
  unfold desired
  split
  · rfl
  · next h =>
    rw [not_and_or] at h
    rcases h with h | h
    · rcases hv : variantForAsset host gpu with _ | _
      · exact absurd hv h
      · rfl
    · exact absurd rfl h

theorem vulkan_wanted {marker : Bool} :
    (∃ gpu, desired host gpu marker = .vulkan) ↔ ¬ VulkanRuledOut host marker := by
  constructor
  · rintro ⟨gpu, hgpu⟩ (hm | hd | ha)
    · rw [hm, desired_marked] at hgpu
      cases hgpu
    · have h : variantForAsset host gpu = .cpu := by simp [variantForAsset, gpuCapable, hd]
      simp [desired, h] at hgpu
    · have h : variantForAsset host gpu = .cpu := by simp [variantForAsset, gpuCapable, ha]
      simp [desired, h] at hgpu
  · intro h
    simp only [VulkanRuledOut, not_or, Bool.not_eq_true] at h
    refine ⟨.amd, ?_⟩
    have hv : variantForAsset host .amd = .vulkan := by
      simp [variantForAsset, gpuCapable, h.2.1, h.2.2]
    simp [desired, hv, h.1]

theorem release_isVulkan {d : Dir File} {build : LlamaVariant} (h : d.files = R.files build) :
    d.isVulkan R = true ↔ build = .vulkan := by
  rw [Dir.isVulkan, h, Bool.or_eq_true, decide_eq_true_eq, decide_eq_true_eq]
  cases build with
  | vulkan => exact iff_of_true R.vulkan_lib rfl
  | cpu => exact iff_of_false (not_or.mpr R.cpu_lib) nofun

theorem installed_release {d : Dir File} {build : LlamaVariant} (h : d.files = R.files build) :
    installedVariant R (some d) = some build := by
  rw [installedVariant, if_pos (h ▸ R.server_mem build)]
  cases build with
  | vulkan => rw [if_pos ((release_isVulkan h).mpr rfl)]
  | cpu => rw [if_neg (fun hv => nomatch (release_isVulkan h).mp hv)]

theorem installed_some {root : Option (Dir File)} {build : LlamaVariant}
    (h : installedVariant R root = some build) : ∃ d, root = some d ∧ R.server ∈ d.files ∧
      build = if d.isVulkan R then .vulkan else .cpu := by
  unfold installedVariant at h
  split at h
  · cases h
  · next d =>
    split at h
    · next hs => exact ⟨d, rfl, hs, (Option.some.inj h).symm⟩
    · cases h

/-- The disk is whole exactly where every install that can be reused is
complete. -/
theorem whole_iff {disk : Disk File} : Whole R host disk ↔
    ∀ gpu, reuses R host disk gpu = true → Complete R (desired host gpu disk.vulkanMarker) disk.root := by
  constructor
  · intro hw gpu hr
    have hinst := of_decide_eq_true hr
    obtain ⟨d, hd, hs, hb⟩ := installed_some hinst
    rcases hw d hd hs with ⟨hexec, build, hfiles⟩ | ⟨hv, hout⟩
    · rw [hd, installed_release hfiles] at hinst
      exact ⟨d, hd, Option.some.inj hinst ▸ hfiles, hexec⟩
    · rw [if_pos hv] at hb
      exact absurd hout (vulkan_wanted.mp ⟨gpu, hb⟩)
  · intro hc d hd hs
    have hcase : ∀ gpu, desired host gpu disk.vulkanMarker =
        (if d.isVulkan R then .vulkan else .cpu) → d.executable = true ∧ ∃ build, d.files = R.files build := by
      intro gpu hgpu
      have hr : reuses R host disk gpu = true := by
        rw [reuses, hd, installedVariant, if_pos hs, hgpu]
        exact decide_eq_true rfl
      obtain ⟨d', hd', hfiles, hexec⟩ := hc gpu hr
      rw [hd] at hd'
      obtain rfl := Option.some.inj hd'
      exact ⟨hexec, _, hfiles⟩
    by_cases hv : d.isVulkan R = true
    · by_cases hout : VulkanRuledOut host disk.vulkanMarker
      · exact .inr ⟨hv, hout⟩
      · obtain ⟨gpu, hgpu⟩ := vulkan_wanted.mpr hout
        exact .inl (hcase gpu (by rw [hgpu, if_pos hv]))
    · exact .inl (hcase .none (by rw [desired_none, if_neg hv]))

omit [DecidableEq File] in
theorem full_unpacked (build : LlamaVariant) :
    (unpackedDir R host unpacked build (R.files build).length).files = R.files build := by
  rw [unpackedDir, List.take_length]

def AtStage (R : Release File) (host : Host) (unpacked : Bool) (disk : Disk File)
    (build : LlamaVariant) : Stage → Prop
  | .download | .clearStaging | .discard => Whole R host disk
  | .extract => Whole R host disk ∧
      ∃ n ≤ (R.files build).length, disk.staging = some (unpackedDir R host unpacked build n)
  | .clearRoot =>
    disk.staging = some (unpackedDir R host unpacked build (R.files build).length)
  | .rename => disk.root = none ∧
    disk.staging = some (unpackedDir R host unpacked build (R.files build).length)
  | .chmod => disk.root = some (unpackedDir R host unpacked build (R.files build).length)

def Inv (R : Release File) (host : Host) (unpacked : Bool) (s : Runtime File) : Prop :=
  match s.point with
  | .idle c => Whole R host s.disk ∧ ∀ gpu, c = some gpu → reuses R host s.disk gpu = true
  | .fetch stage gpu build =>
    build = desired host gpu s.disk.vulkanMarker ∧ AtStage R host unpacked s.disk build stage
  | .probe gpu => Whole R host s.disk ∧ reuses R host s.disk gpu = true
  | .mark _ => Whole R host s.disk

theorem inv_init : Inv R host unpacked (init : Runtime File) :=
  ⟨fun d hd => (nomatch hd), fun gpu hgpu => nomatch hgpu⟩

/-- A whole root stays whole when the marker is written. -/
theorem whole_marked {disk : Disk File} (h : Whole R host disk) :
    Whole R host { disk with vulkanMarker := true } := by
  intro d hd hs
  exact (h d hd hs).imp_right (fun hv => ⟨hv.1, .inl rfl⟩)

/-- The disk after the last step of a fetch. -/
theorem whole_complete {disk : Disk File} {gpu : GpuVendor}
    (h : Complete R (desired host gpu disk.vulkanMarker) disk.root) :
    Whole R host disk ∧ reuses R host disk gpu = true := by
  obtain ⟨d, hd, hfiles, hexec⟩ := h
  constructor
  · intro d' hd' hs
    rw [hd] at hd'
    obtain rfl := Option.some.inj hd'
    exact .inl ⟨hexec, _, hfiles⟩
  · rw [reuses, hd, installed_release hfiles]
    exact decide_eq_true rfl

theorem inv_finish {disk : Disk File} {stage : Stage} {gpu : GpuVendor} {build : LlamaVariant}
    {t : Runtime File} (h : Inv R host unpacked ⟨disk,.fetch stage gpu build⟩)
    (ht : finish R host unpacked disk stage gpu build = some t) : Inv R host unpacked t := by
  obtain ⟨hbuild, hstage⟩ := h
  cases stage with
  | download =>
    obtain rfl := Option.some.inj ht
    exact ⟨hbuild, hstage⟩
  | clearStaging =>
    rw [finish] at ht
    split at ht
    · obtain rfl := Option.some.inj ht
      exact ⟨hbuild, hstage, 0, Nat.zero_le _, rfl⟩
    · cases ht
  | extract =>
    obtain ⟨hw, n, hn, hstaging⟩ := hstage
    dsimp only at hstaging
    rw [finish, hstaging] at ht
    dsimp only at ht
    split at ht
    · next hlen =>
      obtain rfl := Option.some.inj ht
      have hfull : n = (R.files build).length := by
        rw [unpackedDir, List.length_take, Nat.min_eq_left hn] at hlen
        exact hlen
      subst hfull
      refine ⟨hbuild, ?_⟩
      rw [if_pos (by rw [full_unpacked]; exact R.server_mem build)]
      exact hstaging
    · cases ht
  | discard =>
    rw [finish] at ht
    split at ht
    · obtain rfl := Option.some.inj ht
      exact ⟨hstage, fun gpu hgpu => nomatch hgpu⟩
    · cases ht
  | clearRoot =>
    rw [finish] at ht
    split at ht
    · obtain rfl := Option.some.inj ht
      exact ⟨hbuild, rfl, hstage⟩
    · cases ht
  | rename =>
    obtain rfl := Option.some.inj ht
    exact ⟨hbuild, hstage.2⟩
  | chmod =>
    have hcomplete : Complete R build (if host.platform = .win32 then disk
        else { disk with root := disk.root.map (fun d => { d with executable := true }) }).root := by
      have hroot : disk.root = _ := hstage
      have hfull : (unpackedDir R host unpacked build (R.files build).length).files = R.files build :=
        full_unpacked build
      split
      · next hwin =>
        refine ⟨_, hroot, hfull, ?_⟩
        simp [unpackedDir, hwin]
      · exact ⟨{ unpackedDir R host unpacked build (R.files build).length with executable := true },
          by rw [hroot]; rfl, hfull, rfl⟩
    have hmarker : (if host.platform = .win32 then disk
        else { disk with root := disk.root.map (fun d => { d with executable := true }) }).vulkanMarker =
          disk.vulkanMarker := by
      split <;> rfl
    rw [show build = _ from hbuild.trans (congrArg (desired host gpu) hmarker.symm)] at hcomplete
    obtain ⟨hw, hr⟩ := whole_complete hcomplete
    rw [finish] at ht
    obtain rfl := Option.some.inj ht
    by_cases hv : build = .vulkan
    · rw [if_pos hv]
      exact ⟨hw, hr⟩
    · rw [if_neg hv]
      exact ⟨hw, fun gpu' hgpu => Option.some.inj hgpu ▸ hr⟩

theorem inv_step (s : Runtime File) (e : Event File) (t : Runtime File)
    (h : Inv R host unpacked s) (hok : EndsWhole R host s e)
    (ht : step R host unpacked s e = some t) : Inv R host unpacked t := by
  rcases s with ⟨disk, point⟩
  cases e with
  | start gpu =>
    cases point with
    | idle c =>
      rw [step] at ht
      dsimp only at ht
      split at ht
      · next hr =>
        obtain rfl := Option.some.inj ht
        exact ⟨h.1, fun gpu' hgpu => Option.some.inj hgpu ▸ hr⟩
      · obtain rfl := Option.some.inj ht
        exact ⟨rfl, h.1⟩
    | _ => cases ht
  | done =>
    cases point with
    | fetch stage gpu build => exact inv_finish h ht
    | mark gpu =>
      obtain rfl := Option.some.inj ht
      have hcpu : variantForAsset host .none = .cpu := by simp [variantForAsset, gpuCapable]
      exact ⟨hcpu.trans (desired_marked gpu).symm, whole_marked h⟩
    | _ => cases ht
  | write =>
    rw [step] at ht
    split at ht
    · next gpu build d hpoint hstaging =>
      dsimp only at hpoint hstaging
      subst hpoint
      split at ht
      · next hlt =>
        obtain rfl := Option.some.inj ht
        exact ⟨h.1, h.2.1, d.files.length+1, hlt, rfl⟩
      · cases ht
    · cases ht
  | remove f =>
    cases point with
    | fetch stage gpu build =>
      cases stage with
      | clearStaging =>
        obtain rfl := Option.some.inj ht
        exact ⟨h.1, h.2⟩
      | discard =>
        obtain rfl := Option.some.inj ht
        exact ⟨h.1, h.2⟩
      | clearRoot =>
        obtain rfl := Option.some.inj ht
        exact ⟨h.1, h.2⟩
      | _ => cases ht
    | _ => cases ht
  | probed result =>
    cases point with
    | probe gpu =>
      obtain rfl := Option.some.inj ht
      by_cases hg : result = .gpu
      · rw [if_pos hg]
        exact ⟨h.1, fun gpu' hgpu => Option.some.inj hgpu ▸ h.2⟩
      · rw [if_neg hg]
        exact h.1
    | _ => cases ht
  | abort =>
    cases point with
    | idle c => cases ht
    | _ =>
      obtain rfl := Option.some.inj ht
      exact ⟨hok rfl, fun gpu hgpu => nomatch hgpu⟩

theorem inv_boots {s : Runtime File} (h : Inv R host unpacked s) : Boots R host s := by
  rcases s with ⟨disk, point⟩
  cases point with
  | idle c =>
    exact ⟨fun c' gpu _ hr => whole_iff.mp h.1 gpu hr,
      fun gpu hgpu => h.2 gpu (Point.idle.inj hgpu)⟩
  | _ => exact ⟨fun c gpu hc => (nomatch hc), fun gpu hgpu => nomatch hgpu⟩

/-- A run that ends with a broken root leaves an install that is reused. -/
theorem broken_reused (s : Runtime File) (e : Event File) (h : Inv R host unpacked s)
    (hbad : ¬ EndsWhole R host s e) :
    ∃ t, step R host unpacked s e = some t ∧ ¬ Boots R host t := by
  rcases s with ⟨disk, point⟩
  obtain ⟨rfl, hw⟩ := Classical.not_imp.mp hbad
  refine ⟨⟨disk,.idle none⟩, ?_, fun hboots => hw (whole_iff.mpr (fun gpu hr =>
    hboots.complete none gpu rfl hr))⟩
  cases point with
  | idle c => exact absurd h.1 hw
  | _ => rfl

/-- The stages before the old root is touched. -/
def Point.beforeSwap : Point → Prop
  | .fetch .download _ _ | .fetch .clearStaging _ _ | .fetch .extract _ _ | .fetch .discard _ _ => True
  | _ => False

theorem beforeSwap_keeps {s t : Runtime File} {e : Event File} (hs : s.point.beforeSwap)
    (h : step R host unpacked s e = some t) :
    t.disk.root = s.disk.root ∧ t.disk.vulkanMarker = s.disk.vulkanMarker := by
  rcases s with ⟨disk, point⟩
  cases point with
  | fetch stage gpu build =>
    cases e with
    | start gpu => cases h
    | probed result => cases h
    | abort =>
      obtain rfl := Option.some.inj h
      exact ⟨rfl, rfl⟩
    | write =>
      rw [step] at h
      split at h
      · split at h
        · obtain rfl := Option.some.inj h
          exact ⟨rfl, rfl⟩
        · cases h
      · cases h
    | remove f =>
      cases stage with
      | clearStaging | discard =>
        obtain rfl := Option.some.inj h
        exact ⟨rfl, rfl⟩
      | clearRoot => exact hs.elim
      | _ => cases h
    | done =>
      rw [step] at h
      dsimp only at h
      cases stage with
      | download =>
        obtain rfl := Option.some.inj h
        exact ⟨rfl, rfl⟩
      | clearStaging | discard =>
        rw [finish] at h
        split at h
        · obtain rfl := Option.some.inj h
          exact ⟨rfl, rfl⟩
        · cases h
      | extract =>
        rw [finish] at h
        split at h
        · cases h
        · split at h
          · obtain rfl := Option.some.inj h
            exact ⟨rfl, rfl⟩
          · cases h
      | _ => exact hs.elim
  | _ => exact hs.elim

/-- A download or an extraction that ends, by whichever step, leaves every
install reusable that was so before it. -/
theorem reuse_kept (es : List (Event File)) (s t : Runtime File)
    (hes : Meets (step R host unpacked) (fun s _ => s.point.beforeSwap) s es)
    (h : run (step R host unpacked) s es = some t) (gpu : GpuVendor) :
    reuses R host t.disk gpu = reuses R host s.disk gpu := by
  induction es generalizing s with
  | nil =>
    obtain rfl := Option.some.inj h
    rfl
  | cons e es ih =>
    obtain ⟨u, hu, hrun⟩ := Option.bind_eq_some_iff.mp h
    obtain ⟨hroot, hmarker⟩ := beforeSwap_keeps hes.1 hu
    rw [ih u (hes.2 u hu) hrun, reuses, reuses, hroot, hmarker]

/-- In every run from an empty runtime directory, only complete installs of the
wanted variant are reused and a run after a completed one downloads nothing, if
and only if no step fails and no process is killed while the root is broken. A
failed download or extraction takes no install away in any case. -/
theorem boots_iff (R : Release File) (host : Host) (unpacked : Bool) :
    (∀ es : List (Event File), Always (step R host unpacked) (Boots R host) init es ↔
      Meets (step R host unpacked) (EndsWhole R host) init es) ∧
    ∀ (es : List (Event File)) (s t : Runtime File),
      Meets (step R host unpacked) (fun s _ => s.point.beforeSwap) s es →
      run (step R host unpacked) s es = some t →
      ∀ gpu, reuses R host t.disk gpu = reuses R host s.disk gpu :=
  ⟨fun es => always_iff_meets inv_step (fun _ => inv_boots) broken_reused es init inv_init,
    reuse_kept⟩

namespace Interrupted

/-- The CPU build has `llama-server` and a library, the Vulkan build also its
backend. -/
def release : Release ℕ where
  server := 0
  libggmlVulkanSo := 1
  ggmlVulkanDll := 2
  files
    | .vulkan => [0,1,3]
    | .cpu => [0,3]
  nodup v := by cases v <;> decide
  server_mem v := by cases v <;> decide
  vulkan_lib := by decide
  cpu_lib := by decide

def linux : Host := ⟨.linux,false⟩

/-- A first run installs the Vulkan build, sees no GPU device and falls back to
the CPU build. The process is killed after the Vulkan backend and the library
have been removed. -/
def killed : List (Event ℕ) :=
  [.start .amd,.done,.done,.write,.write,.write,.done,.done,.done,.done,.probed .none,.done,
    .done,.done,.write,.write,.done,.remove 1,.remove 3,.abort]

/-- The rest of the Vulkan build is then taken for the CPU build. -/
theorem killed_reused : ¬ ∀ es : List (Event ℕ),
    Always (step release linux true) (Boots release linux) init es := by
  intro h
  have hrun : run (step release linux true) init killed =
      some ⟨⟨some ⟨[0],true⟩,some ⟨[0,3],true⟩,true⟩,.idle none⟩ := rfl
  have hlast := always_last killed init (h killed) hrun
  have hreuse : reuses release linux ⟨some ⟨[0],true⟩,some ⟨[0,3],true⟩,true⟩ .amd = true := by decide
  obtain ⟨d, hd, hfiles, -⟩ := hlast.complete none .amd rfl hreuse
  obtain rfl := Option.some.inj hd
  exact absurd hfiles (by decide)

def upgrading : Runtime ℕ := ⟨⟨some ⟨[0,3],true⟩,none,false⟩,.fetch .download .amd .vulkan⟩

theorem failed_download_keeps :
    Meets (step release linux true) (fun s _ => s.point.beforeSwap) upgrading [.abort] ∧
    run (step release linux true) upgrading [.abort] = some { upgrading with point := .idle none } ∧
    ∀ gpu, reuses release linux { upgrading with point := .idle none }.disk gpu =
      reuses release linux upgrading.disk gpu := by
  have hmeets : Meets (step release linux true) (fun s _ => s.point.beforeSwap) upgrading [.abort] :=
    ⟨trivial, fun _ _ => trivial⟩
  exact ⟨hmeets, rfl, (boots_iff release linux true).2 [.abort] upgrading _ hmeets rfl⟩

end Interrupted

end Uru.Bootstrap
