import Mua.Memory
import Mua.Api
import Mua.Json
import Mua.JsonStrict
import Mua.JsonCast
import Mua.Sse
import Mua.Lib.Incremental
import Mua.Lib.Run
import Mua.Lib.Records
import Mua.Lib.Rounds
import Mua.Lib.Serial
import Mua.Lib.Block
import Mua.Lib.Lines
import Mua.Lib.Search
import Mua.Lib.Ledger
import Mua.Lib.Markup
import Mua.Lib.Separated
import Mua.BufGrowth
import Mua.Arena
import Mua.SseSplit
import Mua.SseReference
import Mua.SseFinish
import Mua.SseCallback
import Mua.Openrouter
import Mua.OpenrouterSpec
import Mua.OpenrouterMessage
import Mua.OpenrouterRun
import Mua.OpenrouterRetry
import Mua.Session
import Mua.SessionLoad
import Mua.SessionLines
import Mua.SessionReload
import Mua.SessionLog
import Mua.SessionStore
import Mua.SessionStamp
import Mua.SessionLatest
import Mua.Options
import Mua.Agent
import Mua.AgentSpec
import Mua.AgentRounds
import Mua.AgentRepair
import Mua.Frontend
import Mua.ModelBorrow
import Mua.ContextBudget
import Mua.ToolDecision
import Mua.ToolRewrite
import Mua.MsgpackMemory
import Mua.MsgpackSlots
import Mua.MsgpackSafe
import Mua.MsgpackEncode
import Mua.JsonObject
import Mua.LuaApi
import Mua.RpcSplit
import Mua.OptionsRun
import Mua.VariablesRun
import Mua.SessHandle
import Mua.RpcRun
import Mua.DepthCap
import Mua.LuaSeams
import Mua.CancelRun
import Mua.BashRun
import Mua.BashOutput
import Mua.ReadTool
import Mua.EditTool
import Mua.ToolRegistry
import Mua.UserPrompt
import Mua.Render
import Mua.RenderCap
import Mua.HttpRun
import Mua.AgentLife
import Mua.CjsonStore
import Mua.OpenrouterResponse
import Mua.RpcVariables
import Mua.AutocmdRun
import Mua.ReplRun
import Mua.FileRun
import Mua.RegisteredTool
import Mua.EnsureDir
import Mua.EnsureDir
