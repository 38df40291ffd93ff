import Mathlib.Data.Finset.Basic
import Mkrootfs.Library.Schedule

/-
  The targets of the top `Makefile` that lead from packages
  to images, and their prerequisites.

  Main declarations:
    * `MakeTarget`
    * `MakeConfig`
    * `MakeConfig.prereqs`
-/

------------------------------------------------------------
-- Targets
------------------------------------------------------------

namespace Mkrootfs

/- The targets of a build. -/
inductive MakeTarget (P : Type) where
| all
| compile (p : P)
| staging (p : P)
| fakerootStaging (p : P)
| rootfs (p : P)
| strip (p : P)
| fakerootRootfs (p : P)
| stagingAll
| rootfsAll
| mkrFakeroot
| rootfsTar
| rsyncdPid
| nfsroot
| initramfsCpio
| initramfsGz
| initramfsXz
| initramfsUb
| initramfsTftp
| linuxImage
| isoLinux
| isoRootfs
| bootIso
| bootHybridIso
| bootEfiIso
| bootEfiHybridIso
| printKernelDestination
| printInitramfsDestination
| printDtbDestination
| cleanRemovedPackages
deriving DecidableEq, Repr

/-
  The parts of the configuration that the rules look at: the
  packages, the goals of the command line, the edges written
  by `file_write_dep` and the output options.
-/
structure MakeConfig (P : Type) where
  allPackages : List P
  packages : List P
  goals : List P
  buildDeps : P → List P
  toolchain : P
  linux : P
  isoBoot : P
  grubEfi : P
  skipRootfs : Bool
  outTar : Bool
  outNfs : Bool
  outInitramfs : Bool
  outInitramfsGz : Bool
  outInitramfsXz : Bool
  outInitramfsUboot : Bool
  outTftp : Bool
  outIsoBoot : Bool
  outIsoHybrid : Bool
  outGrubEfi : Bool
  linuxDt : Bool
  haveIsoLinux : Bool
  haveLinuxImage : Bool

namespace MakeConfig

variable {P : Type} [DecidableEq P]

------------------------------------------------------------
-- Variables
------------------------------------------------------------

/- `dis_packages`. -/
def disPackages (config : MakeConfig P) : List P :=
  config.allPackages.filter (fun p => p ∉ config.packages)

/- `only-packages-y`. -/
def onlyPackages (config : MakeConfig P) : List P :=
  let named :=
    config.packages.filter (fun p => p ∈ config.goals)
  let only := if named = [] then config.packages else named
  if config.outIsoBoot ∧
      ¬ (config.haveIsoLinux ∧ config.haveLinuxImage) then
    only ++ [config.linux]
  else
    only

/- `rootfs-y`. -/
def rootfsY (config : MakeConfig P) : MakeTarget P :=
  if config.skipRootfs then .stagingAll else .rootfsAll

/- `initramfs-out1-y`; the last assignment wins. -/
def initramfsOut1 (config : MakeConfig P) :
    List (MakeTarget P) :=
  if config.outInitramfsXz then
    [.initramfsXz]
  else if config.outInitramfsGz then
    [.initramfsGz]
  else if config.outInitramfs then
    [.initramfsCpio]
  else
    []

/- `initramfs-out2-y`. -/
def initramfsOut2 (config : MakeConfig P) :
    List (MakeTarget P) :=
  if config.outInitramfsUboot then
    [.initramfsUb]
  else
    config.initramfsOut1

/- A word that a variable holds under some conditions. -/
def wordIf
    (condition : Bool)
    (target : MakeTarget P) : List (MakeTarget P) :=
  if condition then [target] else []

/- `outputs-y`, `outputs-y-y` and `outputs-y-y-y`. -/
def outputs (config : MakeConfig P) : List (MakeTarget P) :=
  [config.rootfsY] ++
    wordIf config.outTar .rootfsTar ++
    wordIf config.outNfs .nfsroot ++
    (if config.outInitramfs then
      config.initramfsOut2
    else
      []) ++
    wordIf (config.outTftp && config.outInitramfs)
      .initramfsTftp ++
    wordIf (config.outIsoBoot && !config.outGrubEfi)
      .bootIso ++
    wordIf (config.outIsoBoot && config.outGrubEfi)
      .bootEfiIso ++
    wordIf (config.outIsoBoot && !config.outGrubEfi &&
      config.outIsoHybrid) .bootHybridIso ++
    wordIf (config.outIsoBoot && config.outGrubEfi &&
      config.outIsoHybrid) .bootEfiHybridIso

/- `messages-y` and `messages-y-y`. -/
def messages (config : MakeConfig P) : List (MakeTarget P) :=
  wordIf config.outTftp .printKernelDestination ++
    wordIf (config.outTftp && config.outInitramfs)
      .printInitramfsDestination ++
    wordIf (config.outTftp && config.linuxDt)
      .printDtbDestination

------------------------------------------------------------
-- Rules
------------------------------------------------------------

/- The prerequisites that the rules declare. -/
def prereqs
    (config : MakeConfig P) :
    MakeTarget P → List (MakeTarget P)
| .all =>
    config.messages ++ config.outputs ++
      [.cleanRemovedPackages]
| .compile p =>
    (if p = config.toolchain then
      []
    else
      [.staging config.toolchain]) ++
    (config.buildDeps p).map .staging
| .staging p => [.compile p]
| .fakerootStaging p => [.staging p]
| .rootfs p => [.fakerootStaging p]
| .strip p => [.rootfs p]
| .fakerootRootfs p => [.strip p]
| .stagingAll => config.onlyPackages.map .staging
| .rootfsAll => [.mkrFakeroot]
| .mkrFakeroot =>
    if config.skipRootfs then
      config.onlyPackages.map .fakerootStaging
    else
      config.onlyPackages.map .fakerootRootfs
| .rootfsTar => [config.rootfsY, .mkrFakeroot]
| .rsyncdPid => []
| .nfsroot => [config.rootfsY, .mkrFakeroot, .rsyncdPid]
| .initramfsCpio => [config.rootfsY, .mkrFakeroot]
| .initramfsGz => [.initramfsCpio]
| .initramfsXz => [.initramfsCpio]
| .initramfsUb => config.initramfsOut1
| .initramfsTftp => config.initramfsOut2
| .linuxImage => [.staging config.linux]
| .isoLinux => [.linuxImage, .staging config.isoBoot]
| .isoRootfs => config.initramfsOut1
| .bootIso => [.isoLinux, .isoRootfs]
| .bootHybridIso => [.bootIso]
| .bootEfiIso =>
    [.isoLinux, .isoRootfs, .staging config.grubEfi]
| .bootEfiHybridIso => [.bootEfiIso]
| .printKernelDestination => config.outputs
| .printInitramfsDestination => [.printKernelDestination]
| .printDtbDestination => [.printKernelDestination]
| .cleanRemovedPackages => []

/-
  A run of `make all` in which no recipe fails. The rule of
  a package that is not enabled always fails.
-/
structure Run (config : MakeConfig P) extends
    Schedule config.prereqs MakeTarget.all where
  enabled : ∀ p, MakeTarget.staging p ∈ order →
    p ∈ config.packages

end MakeConfig

end Mkrootfs
