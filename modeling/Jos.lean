import Jos.Lib.Chain
import Jos.Lib.Forest
import Jos.Lib.Refs
import Jos.Spec.Pmap
import Jos.Proof.Bits
import Jos.Spec.Env
import Jos.Spec.Syscall
import Jos.Proof.Pages
import Jos.Proof.Space
import Jos.Proof.Walk
import Jos.Proof.Insert
import Jos.Proof.Inv
import Jos.Proof.Roots
import Jos.Lib.Loop
import Jos.Proof.Env
import Jos.Proof.Free
import Jos.Spec.Run
import Jos.Proof.Calls
import Jos.Proof.Step
import Jos.Proof.Boot
import Jos.Proof.Isolation
import Jos.Proof.Frames
import Jos.Proof.Perms
import Jos.Proof.Errors
import Jos.Proof.MemCheck
import Jos.Proof.Envs
import Jos.Proof.Ids
import Jos.Spec.Smp
import Jos.Proof.Sched
import Jos.Proof.Cpus
import Jos.Proof.Cr3
import Jos.Proof.Ipc
import Jos.Spec.Upcall
import Jos.Proof.Upcall
import Jos.Lib.Bytes
import Jos.Lib.Owner
import Jos.Spec.Fs
import Jos.Spec.Fsck
import Jos.Proof.Disk
import Jos.Proof.Fsck
import Jos.Proof.Blocks
import Jos.Proof.Files
import Jos.Proof.Truncate
import Jos.Proof.Paths
import Jos.Proof.Moves
import Jos.Proof.Exclusive
import Jos.Proof.Leaks
import Jos.Lib.Ring
import Jos.Spec.Pipe
import Jos.Proof.Pipe
import Jos.Spec.Serv
import Jos.Proof.Content
import Jos.Proof.Opens
import Jos.Proof.Total
import Jos.Proof.Requests
import Jos.Proof.Read
import Jos.Proof.Write
import Jos.Proof.Others
import Jos.Proof.Orderly
import Jos.Proof.OpenIds
import Jos.Proof.Fsipc
import Jos.Proof.ReadBack
import Jos.Proof.SetSize
import Jos.Proof.Zeros
import Jos.Proof.Within
import Jos.Lib.Prog
import Jos.Spec.Fd
import Jos.Proof.Ends
import Jos.Proof.Counts
import Jos.Spec.Closed
import Jos.Proof.Closed
import Jos.Spec.Lock
import Jos.Proof.Lock
import Jos.Proof.Tree
import Jos.Spec.Vm
import Jos.Proof.Lookup
import Jos.Proof.Mapping
import Jos.Proof.Region
import Jos.Proof.Yield
import Jos.Proof.FaultFrame
import Jos.Spec.Cow
import Jos.Proof.Cow
import Jos.Spec.Path
import Jos.Proof.Resolve
import Jos.Proof.Names
import Jos.Proof.Created
import Jos.Proof.NoRoom
import Jos.Proof.Failed
import Jos.Proof.Alloc
import Jos.Proof.BootMem
import Jos.Spec.Elf
import Jos.Proof.Sections
import Jos.Proof.Regions
import Jos.Spec.Multiboot
import Jos.Proof.Multiboot
import Jos.Spec.Mp
import Jos.Proof.Mp
import Jos.Spec.Mmio
import Jos.Proof.Mmio
import Jos.Spec.Icode
import Jos.Proof.Icode
import Jos.Proof.Dup
import Jos.Proof.Client
import Jos.Lib.Text
import Jos.Proof.Readline
import Jos.Proof.Lexer
import Jos.Proof.Shell
import Jos.Proof.Args
import Jos.Proof.Printnum
import Jos.Proof.Printf
import Jos.Spec.Spawn
import Jos.Proof.Stack
import Jos.Proof.Segment
import Jos.Proof.Spawn
import Jos.Proof.Copy
import Jos.Proof.Escape
import Jos.Proof.Snprintf
import Jos.Proof.Console
import Jos.Proof.Strtol
import Jos.Lib.Movs
import Jos.Proof.Memmove
import Jos.Lib.Links
import Jos.Spec.CheckFree
import Jos.Proof.CheckFree
import Jos.Proof.Privilege
import Jos.Lib.Cache
import Jos.Spec.Bc
import Jos.Proof.Bc
import Jos.Spec.FsIo
import Jos.Proof.FsIo
import Jos.Proof.Durable
import Jos.Spec.FsInit
import Jos.Proof.Ready
import Jos.Proof.Server
import Jos.Proof.FsInit
import Jos.Lib.Rows
import Jos.Proof.Format
import Jos.Proof.FormatRun
import Jos.Proof.FormatImage
import Jos.Lib.Returns
import Jos.Proof.FormatTotal
