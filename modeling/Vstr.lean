import Vstr.Lib.Memory
import Vstr.Lib.Splice
import Vstr.Lib.Run
import Vstr.Lib.Query
import Vstr.Lib.Numeral
import Vstr.Lib.Count
import Vstr.Model.State
import Vstr.Model.Heap
import Vstr.Model.Cache
import Vstr.Model.Pos
import Vstr.Model.Add
import Vstr.Model.Del
import Vstr.Model.Export
import Vstr.Model.AddVstr
import Vstr.Model.Sub
import Vstr.Model.IovecBuf
import Vstr.Model.Parse
import Vstr.Model.Sect
import Vstr.Spec.Content
import Vstr.Spec.Ownership
import Vstr.Spec.Valid
import Vstr.Own.Heap
import Vstr.Own.Nodes
import Vstr.Own.Lend
import Vstr.Own.Init
import Vstr.Cache.Core
import Vstr.Edit.Split
import Vstr.Edit.Link
import Vstr.Edit.Long
import Vstr.Sub.Whole
import Vstr.Mem.Wrap
import Vstr.Fmt.Directive
import Vstr.Fmt.Field
import Vstr.Fmt.Fill
import Vstr.Parse.Mask
import Vstr.Parse.Address
import Vstr.Parse.Cidr
import Vstr.Edit.Add
import Vstr.Edit.Drop
import Vstr.Edit.Del
import Vstr.Edit.Grant
import Vstr.Export.Iter
import Vstr.Export.Copy
import Vstr.Export.Convert
import Vstr.Export.Ref
import Vstr.Export.Cstr
import Vstr.Run.Calls
import Vstr.Run.Inline
import Vstr.Run.Range
import Vstr.World.Basic
import Vstr.World.AllRef
import Vstr.Parse.Read
import Vstr.Parse.Number
import Vstr.Parse.Overflow
import Vstr.Parse.Netstr
import Vstr.Sect.Follow
import Vstr.Model.Conf
import Vstr.Conf.Refs
import Vstr.Conf.Lifetime
import Vstr.Conf.Release
import Vstr.Conf.Slots
import Vstr.Fmt.Read
import Vstr.Fmt.Registry
import Vstr.Fmt.Match
import Vstr.Fmt.Sequential
import Vstr.Fmt.Layout
import Vstr.Fmt.C99
import Vstr.Fmt.Ptrdiff
import Vstr.Fmt.Address
import Vstr.Fmt.Round
import Vstr.Model.Srch
import Vstr.Model.Split
import Vstr.Model.Ip
import Vstr.Model.IpFmt
import Vstr.Model.FmtName
import Vstr.Model.FmtNum
import Vstr.Model.FmtSpec
import Vstr.Parse.Srch
import Vstr.Parse.Split
import Vstr.Parse.Digits
import Vstr.Parse.Prefix
import Vstr.Parse.Ip
import Vstr.Parse.IpText
import Vstr.Parse.IpRound
import Vstr.Parse.IpAgree
import Vstr.Lib.Occur
import Vstr.Lib.Separate
import Vstr.Srch.Walk
import Vstr.Srch.Rev
import Vstr.Srch.Span
import Vstr.Lib.Lex
import Vstr.Cmp.Order
import Vstr.Cmp.Fast
import Vstr.Model.Vers
import Vstr.Cmp.Vers
import Vstr.Cmp.VersOrder
import Vstr.Cmp.VersCycle
import Vstr.Srch.Find
import Vstr.Srch.FindRev
import Vstr.Srch.Case
import Vstr.Srch.Vstr
import Vstr.Split.Find
import Vstr.Split.Add
import Vstr.Split.Plan
import Vstr.Split.Turn
import Vstr.Split.Wanted
import Vstr.Split.Stop
import Vstr.Split.Whole
import Vstr.Split.Limit
import Vstr.Model.Path
import Vstr.Srch.Path
import Vstr.Model.RefGrp
import Vstr.Ref.Group
import Vstr.Model.Vector
import Vstr.Cache.Vector
import Vstr.Model.Data
import Vstr.Conf.Data
import Vstr.Model.Forward
import Vstr.Export.Forward
import Vstr.Export.Vectors
import Vstr.Model.System
import Vstr.Export.Coherent
import Vstr.World.Shared
import Vstr.World.Run
import Vstr.Edit.Undo
import Vstr.Model.Grouping
import Vstr.Fmt.Grouping
import Vstr.Cache.Shown
import Vstr.Edit.Shown
import Vstr.Export.All
import Vstr.Run.Vectors
import Vstr.Model.Posix
import Vstr.Posix.Write
import Vstr.Posix.Pipe
import Vstr.Edit.Offer
import Vstr.Edit.Accept
