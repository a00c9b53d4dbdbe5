import KernelTrg.Lib.Errexit
import KernelTrg.Kbuild.Reply

/-!
# The kernel build script

`kbuild.sh` in strict mode: the programs it runs succeed or fail as they like, and may look at all
that has been run before them.
-/

namespace KernelTrg.Kbuild

open Bytes Errexit

/-! ## Variables and simple commands -/

structure Vars where
  /-- the positional parameters -/
  args : List (List UInt8)
  /-- empty where it is not set -/
  ARCH : List UInt8
  KSRC : Option (List UInt8)
  name : List UInt8
  CONFIGURE : Nat
  nproc : Nat
  JOBS : List UInt8
  /-- `$?`, where it is read -/
  last : Nat
  stat : Nat

/-- What the script runs, beside `echo` and what works on its variables only. -/
inductive Program where
  | basename
  | cd
  | rm
  | date
  /-- `echo "Version: $(head Makefile)"` -/
  | version
  | lsmod
  | localmodconfig
  | oldconfig
  | menuconfig
  | stty
  | ls
  | scriptsConfig
  /-- `[[ ! -f .config ]]` -/
  | noConfig
  /-- `local nproc=$(nproc)` -/
  | nproc
  /-- `JOBS=$(($(nproc)*2))` -/
  | twiceNproc
  | bc
  | make
  /-- `[[ ! -f arch/x86/boot/bzImage ]]` -/
  | noImage
  | getYnReply
  | modulesInstall
  | install
  | tee
  deriving DecidableEq

inductive Command where
  | echo (text : Vars → List UInt8)
  | test (holds : Vars → Bool)
  | assign (change : Vars → Vars)
  | program (p : Program)

abbrev World := Errexit.World Command Vars (List Line)

/-- The programs of a machine: the status of each run, and what it leaves of the input. Where `nproc`
and `bc` succeed they print the number of processors and the product. -/
structure Env where
  name : List UInt8
  nproc : Nat
  react : Command → Vars → World → Nat × List Line

def ynReply (input : List Line) : Option Nat := (replies input).findSome? answer

/-- `bc <<< "scale=0; (n*1.5)"` -/
def threeHalves (n : Nat) : List UInt8 :=
  decimal (3 * n / 2) ++ if n % 2 = 0 then ascii ".0" else ascii ".5"

def act (env : Env) : Act Command Vars (List Line)
  | .test holds, v, w => some (if holds v then 0 else 1, v, w.rest)
  | .assign change, v, w => some (0, change v, w.rest)
  | .program .nproc, v, w =>
      let (status, input) := env.react (.program .nproc) v w
      -- `local` hides a failure, which leaves the variable empty
      some (0, { v with nproc := if status = 0 then env.nproc else 0 }, input)
  | .program .twiceNproc, v, w =>
      let (status, input) := env.react (.program .twiceNproc) v w
      some (status, { v with JOBS := decimal (env.nproc * 2) }, input)
  | .program .getYnReply, v, w =>
      (ynReply w.rest).map fun ret =>
        (ret, { v with last := ret }, (env.react (.program .getYnReply) v w).2)
  | .program .cd, v, w =>
      let (status, input) := env.react (.program .cd) v w
      -- under `set -u` an unbound KSRC ends the script with 1, as the `exit 1` there does
      some (if v.KSRC = none then 1 else status, v, input)
  | .program .basename, v, w =>
      let (status, input) := env.react (.program .basename) v w
      some (status, { v with name := env.name }, input)
  | .program .bc, v, w =>
      let (status, input) := env.react (.program .bc) v w
      some (status, { v with JOBS := threeHalves v.nproc }, input)
  | k, v, w =>
      let (status, input) := env.react k v w
      some (status, v, input)

/-! ## The script -/

def echo (text : Vars → List UInt8) : Cmd Command := .run (.echo text)

def say (text : String) : Cmd Command := echo fun _ => ascii text

def test (holds : Vars → Bool) : Cmd Command := .run (.test holds)

def assign (change : Vars → Vars) : Cmd Command := .run (.assign change)

def program (p : Program) : Cmd Command := .run (.program p)

/-- `tee -a ${LOG}` behind a command -/
def logged (c : Cmd Command) : Cmd Command := .pipe c (program .tee)

def die (message : String) : Cmd Command := .call (.steps [say message, .exit 1])

def usage : Cmd Command :=
  .call (echo fun v => ascii "Usage: " ++ v.name ++
    ascii " [-c] path-to-kernel-src-tree-to-build\n" ++
    ascii " -c : configure the kernel to a default state (via the 'localmodconfig' approach)\n" ++
    ascii "      NOTE: selecting this will OVERWRITE your existing .config !")

def configureKernelLocalmodconfig : Cmd Command :=
  .call (.steps [
    program .lsmod,
    say "[+] make LSMOD=/tmp/lsmod.now localmodconfig",
    program .localmodconfig,
    say "[+] make oldconfig",
    program .oldconfig,
    say "[+] make menuconfig ",
    program .stty,
    .or (.and (program .menuconfig) (say "")) (die "menuconfig failed"),
    logged (program .ls),
    say "",
    say "[+] scripts/config --disable SYSTEM_REVOCATION_KEYS",
    program .scriptsConfig])

def buildKernel : Cmd Command :=
  .call (.steps [
    program .nproc,
    .ite (test fun v => v.nproc ≤ 64)
      (program .twiceNproc)
      (.steps [
        program .bc,
        assign fun v => { v with JOBS := v.JOBS.take (v.JOBS.length - 2) }]),
    say "",
    program .date,
    echo fun v => ascii "[+] time make -j" ++ v.JOBS,
    .or (.and (program .make) (.steps [say "", program .date])) (die "make <kernel> *failed*"),
    .or
      (.and (program .noImage)
        (die "make <kernel> *failed*? arch/x86/boot/bzImage not generated"))
      (.set id)])

def installModules : Cmd Command :=
  .call (.steps [
    say "",
    say "[+] sudo make modules_install ",
    .or (program .modulesInstall) (die "*Failed* modules install")])

/-- What stands in front of the first step: the options and the parameters. -/
def processArgs : Cmd Command :=
  .steps [
    program .basename,
    assign fun v => { v with CONFIGURE := 0 },
    .and (test fun v => v.args.length < 1) (.steps [usage, .exit 1]),
    .ite (.and (test fun v => v.ARCH ≠ []) (test fun v => v.ARCH ≠ ascii "x86"))
      (.steps [
        echo fun v => v.name ++ ascii ": you seem to want to build the kernel for arch " ++ v.ARCH,
        say "This simple script currently supports only x86_64",
        .exit 1])
      (.set id),
    .ite (.and (test fun v => 1 ≤ v.args.length) (test fun v => v.args.headD [] = ascii "-h"))
      (.steps [usage, .exit 0])
      (.set id),
    .and (test fun v => v.args.length = 1) (assign fun v => { v with KSRC := v.args[0]? }),
    .and (test fun v => v.args.length = 2) (assign fun v => { v with KSRC := v.args[1]? }),
    .ite (.and (test fun v => v.args.length < 2) (test fun v => v.args.headD [] = ascii "-c"))
      (.steps [usage, .exit 1])
      (.set id)]

def enterTree : Cmd Command :=
  .steps [
    .or (program .cd) (.exit 1),
    program .rm,
    logged (.sub (.steps [
      program .date,
      say "[Logging to file kbuild_log ...]",
      program .version]))]

def configure : Cmd Command :=
  .ite (.and (test fun v => 2 ≤ v.args.length) (test fun v => v.args.headD [] = ascii "-c"))
    (.steps [
      assign fun v => { v with CONFIGURE := 1 },
      logged configureKernelLocalmodconfig])
    (logged (.sub (.steps [
      say ("[-] Skipping kernel configure, using existing .config\n" ++
        "    (Tip: pass -c if you want to configure the kernel to defaults)"),
      .or
        (.and (program .noConfig) (.steps [
          say "Fresh kernel (no .config), so running 'make oldconfig'",
          say "[+] make oldconfig",
          program .oldconfig]))
        (.set id)])))

def finish : Cmd Command :=
  .steps [
    say "\nInstall kernel modules now?",
    .set fun options => { options with errexit := false },
    program .getYnReply,
    assign fun v => { v with stat := v.last },
    .set fun options => { options with errexit := true },
    .ite (test fun v => v.stat = 0) installModules (say "[-] Skipping kernel modules install step"),
    say "",
    say "[+] sudo make install",
    .or (program .install) (die "*Failed*"),
    say ("\nDone, reboot, select your new kernel from the bootloader menu & boot it\n" ++
      "(If not already done, you first need to configure GRUB to show the menu at boot)"),
    program .date]

def script : Cmd Command :=
  .steps [
    .set fun _ => strict,
    processArgs,
    enterTree,
    configure,
    logged buildKernel,
    logged (.sub finish),
    .exit 0]

/-- The script run with its variables as the environment has them: its status and what was run. -/
def kbuild (env : Env) (v : Vars) (input : List Line) : Option (Nat × World) :=
  (exec (act env) .checked script ⟨⟨false, false⟩, v, ⟨[], input⟩⟩).map fun o =>
    (o.status, o.world)

end KernelTrg.Kbuild
