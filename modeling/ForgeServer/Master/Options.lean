import ForgeServer.Net.Listener

/-!
# The options

`main` up to the call of `forge_master_run`: the options in the order in which `getopt` returns
them, then the listening socket. Of several options of a kind the last one counts
(`getopts_eq_some`), and what the master is started with is then a function of the options and of
the descriptor of the socket (`forgeMain_eq_master`).
-/

namespace ForgeServer

open CStr

/-- What `getopt` returns for `"w:l:r:"`, with `optarg`. -/
inductive Opt
  | w (optarg : List UInt8)
  | l (optarg : List UInt8)
  | r (optarg : List UInt8)
  /-- An unknown option, or one without its argument. -/
  | unknown

/-- How `main` goes on. -/
inductive Started
  /-- It has printed the usage. -/
  | usage
  | died (text : List UInt8)
  /-- It calls `forge_master_run`. -/
  | master (cfg : ForgeCfg)

/-- The loop around `getopt`; `none` for the usage. -/
def getopts : ForgeCfg → List Opt → Option ForgeCfg
  | cfg, [] => some cfg
  | cfg, .w optarg :: opts => getopts { cfg with workers := atoi optarg } opts
  | cfg, .l optarg :: opts => getopts { cfg with listenHostport := optarg } opts
  | cfg, .r optarg :: opts => getopts { cfg with docRoot := optarg } opts
  | _, .unknown :: _ => none

/-- `main`. -/
def forgeMain (k : ListenKernel) (opts : List Opt) : Started :=
  match getopts {} opts with
  | none => .usage
  | some cfg =>
    match forgeCreateListener k cfg.listenHostport with
    | .died text => .died text
    | .listening fd _ => .master { cfg with listenFd := fd, controlFd := -1 }

/-! ### What the master is started with -/

/-- The argument of `-w`. -/
def Opt.w? : Opt → Option (List UInt8)
  | .w optarg => some optarg
  | _ => none

/-- The argument of `-l`. -/
def Opt.l? : Opt → Option (List UInt8)
  | .l optarg => some optarg
  | _ => none

/-- The argument of `-r`. -/
def Opt.r? : Opt → Option (List UInt8)
  | .r optarg => some optarg
  | _ => none

/-- The last argument of a kind. -/
def lastArg (kind : Opt → Option (List UInt8)) (opts : List Opt) : Option (List UInt8) :=
  (opts.filterMap kind).getLast?

theorem lastArg_cons (kind : Opt → Option (List UInt8)) (o : Opt) (opts : List Opt) :
    lastArg kind (o :: opts) = (lastArg kind opts).or (kind o) := by
  cases h : kind o with
  | none => rw [lastArg, List.filterMap_cons_none h, Option.or_none, lastArg]
  | some a =>
    rw [lastArg, List.filterMap_cons_some h, List.getLast?_cons, lastArg]
    cases (opts.filterMap kind).getLast? <;> rfl

/-- **The last option of each kind counts.** -/
theorem getopts_eq_some {cfg cfg' : ForgeCfg} {opts : List Opt} (h : getopts cfg opts = some cfg') :
    cfg' = { cfg with
      listenHostport := (lastArg Opt.l? opts).getD cfg.listenHostport
      docRoot := (lastArg Opt.r? opts).getD cfg.docRoot
      workers := ((lastArg Opt.w? opts).map atoi).getD cfg.workers } := by
  induction opts generalizing cfg with
  | nil => exact (Option.some.inj h).symm
  | cons o opts ih =>
    cases o with
    | unknown => exact absurd h (by simp [getopts])
    | w optarg =>
      rw [ih h]
      simp only [lastArg_cons, Opt.w?, Opt.l?, Opt.r?, Option.or_none]
      cases lastArg Opt.w? opts <;> rfl
    | l optarg =>
      rw [ih h]
      simp only [lastArg_cons, Opt.w?, Opt.l?, Opt.r?, Option.or_none]
      cases lastArg Opt.l? opts <;> rfl
    | r optarg =>
      rw [ih h]
      simp only [lastArg_cons, Opt.w?, Opt.l?, Opt.r?, Option.or_none]
      cases lastArg Opt.r? opts <;> rfl

/-- **What the master is started with.** -/
theorem forgeMain_eq_master {k : ListenKernel} {opts : List Opt} {cfg : ForgeCfg}
    (h : forgeMain k opts = .master cfg) :
    ∃ fd addr, forgeCreateListener k cfg.listenHostport = .listening fd addr ∧ cfg =
      { listenHostport := (lastArg Opt.l? opts).getD (ascii "0.0.0.0:8080")
        docRoot := (lastArg Opt.r? opts).getD (ascii "./public")
        workers := ((lastArg Opt.w? opts).map atoi).getD 4
        listenFd := fd
        controlFd := -1 } := by
  unfold forgeMain at h
  split at h
  case h_1 => exact absurd h (by simp)
  rename_i cfg' hopts
  split at h
  case h_1 => exact absurd h (by simp)
  rename_i fd addr hlisten
  obtain rfl := Started.master.inj h
  refine ⟨fd, addr, hlisten, ?_⟩
  rw [getopts_eq_some hopts]

/-- The number of workers is an `int`. -/
theorem isInt_workers {k : ListenKernel} {opts : List Opt} {cfg : ForgeCfg}
    (h : forgeMain k opts = .master cfg) : CInt.IsInt cfg.workers := by
  obtain ⟨fd, addr, -, rfl⟩ := forgeMain_eq_master h
  show CInt.IsInt (((lastArg Opt.w? opts).map atoi).getD 4)
  cases lastArg Opt.w? opts with
  | none => exact ⟨by decide, by decide⟩
  | some optarg => exact isInt_atoi optarg

end ForgeServer
