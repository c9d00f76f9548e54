import Uru.Lib.Machine

/-!
# Installing llama-server

`ensureLlamaServer` against the file system of the runtime directory. Every
removal of a single file, every file that tar writes, the rename and the chmod
are steps of their own, and a run can end at any of them, because the step
fails or the process is killed. What a release archive holds, and whether tar
leaves the binary executable, is a parameter.
-/

set_option autoImplicit false

namespace Uru.Bootstrap

inductive GpuVendor
  | amd | nvidia | intel | none
deriving DecidableEq

inductive LlamaVariant
  | vulkan | cpu
deriving DecidableEq

inductive Platform
  | darwin | win32 | linux
deriving DecidableEq

structure Host where
  platform : Platform
  arm64 : Bool

def gpuCapable (host : Host) (gpu : GpuVendor) : Bool :=
  host.platform ≠ .darwin && !host.arm64 && gpu ≠ .none

def variantForAsset (host : Host) (gpu : GpuVendor) : LlamaVariant :=
  if gpuCapable host gpu then .vulkan else .cpu

/-- What the archives of the pinned build hold: `server` is `llama-server`, and
the other two names are those of the Vulkan backend next to it. -/
structure Release (File : Type) where
  server : File
  libggmlVulkanSo : File
  ggmlVulkanDll : File
  files : LlamaVariant → List File
  nodup : ∀ v, (files v).Nodup
  server_mem : ∀ v, server ∈ files v
  vulkan_lib : libggmlVulkanSo ∈ files .vulkan ∨ ggmlVulkanDll ∈ files .vulkan
  cpu_lib : libggmlVulkanSo ∉ files .cpu ∧ ggmlVulkanDll ∉ files .cpu

/-- A directory: its files, and whether `llama-server` can be executed. -/
structure Dir (File : Type) where
  files : List File
  executable : Bool
deriving DecidableEq

structure Disk (File : Type) where
  root : Option (Dir File)
  staging : Option (Dir File)
  vulkanMarker : Bool

inductive Stage
  | download | clearStaging | extract | discard | clearRoot | rename | chmod
deriving DecidableEq

/-- The point that a run has reached. An idle plugin keeps the GPU that the
last run detected, if that run returned a path. -/
inductive Point
  | idle (completed : Option GpuVendor)
  | fetch (stage : Stage) (gpu : GpuVendor) (build : LlamaVariant)
  | probe (gpu : GpuVendor)
  | mark (gpu : GpuVendor)
deriving DecidableEq

structure Runtime (File : Type) where
  disk : Disk File
  point : Point

inductive Probe
  | gpu | none | error
deriving DecidableEq

inductive Event (File : Type)
  | start (gpu : GpuVendor)
  | done
  | write
  | remove (f : File)
  | probed (result : Probe)
  | abort

section Machine

variable {File : Type} [DecidableEq File]

def Dir.remove (f : File) (d : Dir File) : Dir File := { d with files := d.files.erase f }

def Dir.isEmpty : Option (Dir File) → Bool
  | none => true
  | some d => d.files.isEmpty

variable (R : Release File) (host : Host) (unpacked : Bool)

def Dir.isVulkan (d : Dir File) : Bool :=
  R.libggmlVulkanSo ∈ d.files || R.ggmlVulkanDll ∈ d.files

def installedVariant : Option (Dir File) → Option LlamaVariant
  | none => none
  | some d =>
    if R.server ∈ d.files then some (if d.isVulkan R then .vulkan else .cpu) else none

def desired (gpu : GpuVendor) (vulkanMarker : Bool) : LlamaVariant :=
  if variantForAsset host gpu = .vulkan ∧ vulkanMarker = true then .cpu
  else variantForAsset host gpu

def reuses (disk : Disk File) (gpu : GpuVendor) : Bool :=
  installedVariant R disk.root = some (desired host gpu disk.vulkanMarker)

def unpackedDir (build : LlamaVariant) (n : ℕ) : Dir File :=
  { files := (R.files build).take n
    executable := unpacked || host.platform = .win32 }

def finish (disk : Disk File) : Stage → GpuVendor → LlamaVariant → Option (Runtime File)
  | .download, gpu, build => some ⟨disk,.fetch .clearStaging gpu build⟩
  | .clearStaging, gpu, build =>
    if Dir.isEmpty disk.staging then
      some ⟨{ disk with staging := some (unpackedDir R host unpacked build 0) },.fetch .extract gpu build⟩
    else none
  | .extract, gpu, build =>
    match disk.staging with
    | none => none
    | some d =>
      if d.files.length = (R.files build).length then
        some ⟨disk,.fetch (if R.server ∈ d.files then .clearRoot else .discard) gpu build⟩
      else none
  | .discard, _, _ =>
    if Dir.isEmpty disk.staging then some ⟨{ disk with staging := none },.idle none⟩ else none
  | .clearRoot, gpu, build =>
    if Dir.isEmpty disk.root then some ⟨{ disk with root := none },.fetch .rename gpu build⟩
    else none
  | .rename, gpu, build =>
    some ⟨{ disk with root := disk.staging, staging := none },.fetch .chmod gpu build⟩
  | .chmod, gpu, build =>
    some
      ⟨if host.platform = .win32 then disk
        else { disk with root := disk.root.map (fun d => { d with executable := true }) },
        if build = .vulkan then .probe gpu else .idle (some gpu)⟩

def step (s : Runtime File) : Event File → Option (Runtime File)
  | .start gpu =>
    match s.point with
    | .idle _ =>
      if reuses R host s.disk gpu then some { s with point := .idle (some gpu) }
      else some { s with point := .fetch .download gpu (desired host gpu s.disk.vulkanMarker) }
    | _ => none
  | .done =>
    match s.point with
    | .fetch stage gpu build => finish R host unpacked s.disk stage gpu build
    | .mark gpu =>
      some ⟨{ s.disk with vulkanMarker := true },.fetch .download gpu (variantForAsset host .none)⟩
    | _ => none
  | .write =>
    match s.point, s.disk.staging with
    | .fetch .extract _ build, some d =>
      if d.files.length < (R.files build).length then
        some { s with disk := { s.disk with
          staging := some (unpackedDir R host unpacked build (d.files.length+1)) } }
      else none
    | _, _ => none
  | .remove f =>
    match s.point with
    | .fetch .clearStaging _ _ | .fetch .discard _ _ =>
      some { s with disk := { s.disk with staging := s.disk.staging.map (Dir.remove f) } }
    | .fetch .clearRoot _ _ =>
      some { s with disk := { s.disk with root := s.disk.root.map (Dir.remove f) } }
    | _ => none
  | .probed result =>
    match s.point with
    | .probe gpu => some { s with point := if result = .gpu then .idle (some gpu) else .mark gpu }
    | _ => none
  | .abort =>
    match s.point with
    | .idle _ => none
    | _ => some { s with point := .idle none }

def init : Runtime File := ⟨⟨none,none,false⟩,.idle none⟩

end Machine

end Uru.Bootstrap
