import LuaJit.Word
import LuaJit.Double
import LuaJit.Obj
import LuaJit.Chain
import LuaJit.Tab
import LuaJit.TabHash
import LuaJit.TabPairs
import LuaJit.TabCount
import LuaJit.TabResize
import LuaJit.TabRun
import LuaJit.TabRecycle
import LuaJit.IrDef
import LuaJit.IrSem
import LuaJit.Carith
import LuaJit.FoldConst
import LuaJit.IrEnv
import LuaJit.FoldAbc
import LuaJit.FoldRules
import LuaJit.FoldConv
import LuaJit.Bc
import LuaJit.Trace
import LuaJit.TraceInv
import LuaJit.TraceRun
import LuaJit.BcWrite
import LuaJit.ParseEnv
import LuaJit.LoopSound
import LuaJit.StructLayout
import LuaJit.Bitfield
import LuaJit.ArmCall
import LuaJit.Cconv
import LuaJit.CrecConv
import LuaJit.CtInit
import LuaJit.CtInitFoot
import LuaJit.CtInitRoom
import LuaJit.CtInitSafe
import LuaJit.Cparse
import LuaJit.CparseNest
import LuaJit.Cexpr
import LuaJit.CexprSound
import LuaJit.ForLoop
import LuaJit.ForScev
import LuaJit.StrRange
import LuaJit.FwdNonnil
import LuaJit.ArmIsa
import LuaJit.ArmAsm
import LuaJit.ArmFuse
import LuaJit.ArmGuardCode
import LuaJit.ArmGuard
import LuaJit.ArmInt64
import LuaJit.Span
import LuaJit.Ccall
import LuaJit.CcallSlots
import LuaJit.Ccallback
import LuaJit.CcallArm64
import LuaJit.CcallX64
import LuaJit.CrecArith
import LuaJit.CrecArithSound
import LuaJit.CrecBit
import LuaJit.CrecBitSound
import LuaJit.CrecBitNary
import LuaJit.CrecBitIff
import LuaJit.DasmArm
import LuaJit.DasmArmSound
import LuaJit.StackMove
import LuaJit.ArmLoad
import LuaJit.MetaCat
import LuaJit.MetaCatSound
import LuaJit.Lcg
import LuaJit.Mcode
import LuaJit.McodeInv
import LuaJit.McodePlace
import LuaJit.StrMatch
import LuaJit.StrClass
import LuaJit.StrSound
import LuaJit.StrGsub
import LuaJit.NarrowStack
import LuaJit.TabLen
import LuaJit.TabNext
import LuaJit.TabRehash
import LuaJit.NarrowSem
import LuaJit.NarrowSound
import LuaJit.SnapBuf
import LuaJit.SnapInv
import LuaJit.SnapRun
import LuaJit.SnapSim
import LuaJit.BcUleb
import LuaJit.Buf
import LuaJit.CarithPtr
import LuaJit.CarithSound
import LuaJit.Effect
import LuaJit.ExprBinop
import LuaJit.ExprGrammar
import LuaJit.ExprGroups
import LuaJit.Float64
import LuaJit.IntMod
import LuaJit.IrStore
import LuaJit.IrStoreRun
import LuaJit.LexQuoted
import LuaJit.Linked
import LuaJit.LinkedRing
import LuaJit.Sbuf
import LuaJit.SbufSound
import LuaJit.StrCmp
import LuaJit.StrIntern
import LuaJit.StrInternSound
import LuaJit.TabSort
import LuaJit.TabSortSound
import LuaJit.Upval
import LuaJit.UpvalRun
