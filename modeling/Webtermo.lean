import Webtermo.Library.Run
import Webtermo.Library.Buffer
import Webtermo.Library.Paged
import Webtermo.Objects.Define
import Webtermo.Objects.Float
import Webtermo.Objects.Structures
import Webtermo.Execution.Wapp.State
import Webtermo.Library.Obligation
import Webtermo.Execution.Wapp.Step
import Webtermo.Execution.Wapp.Theorems.Send
import Webtermo.Execution.Wapp.Theorems.Delivery
import Webtermo.Execution.Wapp.Theorems.Channel
import Webtermo.Execution.Post.Basic
import Webtermo.Execution.Post.Theorems.Isolation
import Webtermo.Execution.Post.Connection
import Webtermo.Execution.Post.Theorems.Reassembly
import Webtermo.Execution.Post.Theorems.Abort
import Webtermo.Execution.Alarm.State
import Webtermo.Library.Since
import Webtermo.Execution.Alarm.Theorems.DelayLaw
import Webtermo.Execution.Alarm.Theorems.Run
import Webtermo.Library.Base64
import Webtermo.Objects.System
import Webtermo.Library.Segment
import Webtermo.Execution.Auth.State
import Webtermo.Execution.Auth.Theorems.CheckAuth
import Webtermo.Execution.Auth.Theorems.Gate
import Webtermo.Execution.Config.State
import Webtermo.Execution.Config.Handlers
import Webtermo.Library.Slots
import Webtermo.Objects.Eeprom
import Webtermo.Execution.Config.Theorems.Output
import Webtermo.Execution.Config.Theorems.Isolation
import Webtermo.Execution.Config.Theorems.Frame
import Webtermo.Execution.Config.Theorems.Absent
import Webtermo.Execution.Config.Theorems.Coherence
import Webtermo.Execution.Logger.State
import Webtermo.Execution.Logger.Theorems.Pass
import Webtermo.Execution.Logger.Theorems.Mean
import Webtermo.Execution.Logger.Theorems.Reading
import Webtermo.Execution.OneWire.State
import Webtermo.Execution.OneWire.Theorems
import Webtermo.Execution.Report.State
import Webtermo.Execution.Report.Theorems
import Webtermo.Execution.Sntp.State
import Webtermo.Execution.Input.State
import Webtermo.Execution.Input.Theorems
import Webtermo.Execution.Sntp.Theorems
import Webtermo.Execution.Wcl.Xml
import Webtermo.Execution.Wcl.State
import Webtermo.Execution.Wcl.Theorems.Document
import Webtermo.Execution.Wcl.Theorems.Resume
import Webtermo.Execution.Wcl.Theorems.Routing
import Webtermo.Execution.Wcl.Theorems.Pcb
import Webtermo.Execution.Wcl.Theorems.Request
import Webtermo.Execution.Httpd.State
import Webtermo.Execution.Httpd.Theorems
import Webtermo.Execution.Schedule.State
import Webtermo.Execution.Schedule.Theorems.Periodic
import Webtermo.Execution.Schedule.Theorems.Haccp
import Webtermo.Execution.Schedule.Theorems.Scan
import Webtermo.Execution.I2c.State
import Webtermo.Execution.Enc.Registers
import Webtermo.Execution.Enc.Theorems.Registers
import Webtermo.Execution.I2c.Theorems
import Webtermo.Execution.Enc.Transmit
import Webtermo.Execution.Enc.Receive
import Webtermo.Execution.Enc.Theorems.Transmit
import Webtermo.Execution.Enc.Theorems.Receive
import Webtermo.Execution.Flash.State
import Webtermo.Execution.Flash.Theorems
import Webtermo.Execution.Lfs.State
import Webtermo.Library.Script
import Webtermo.Execution.Lfs.Theorems.Handles
import Webtermo.Execution.Lfs.Saves
import Webtermo.Execution.Lfs.Theorems.Saves
import Webtermo.Execution.Receive.State
import Webtermo.Execution.Receive.Theorems
import Webtermo.Execution.Pages.State
import Webtermo.Library.Xml
import Webtermo.Execution.Pages.Table
import Webtermo.Execution.Pages.Theorems.Formats
import Webtermo.Execution.Pages.Theorems.Parts
import Webtermo.Execution.Pages.Theorems.Document
import Webtermo.Execution.Pages.Theorems.ReadOnly
import Webtermo.Execution.Lfs.Download
import Webtermo.Execution.Lfs.Theorems.Download
import Webtermo.Execution.Path.State
import Webtermo.Execution.Path.Theorems
import Webtermo.Execution.Config.Theorems.Boot
import Webtermo.Execution.Login.State
import Webtermo.Execution.Login.Theorems
import Webtermo.Execution.Nvram.State
import Webtermo.Execution.Nvram.Theorems.Init
import Webtermo.Execution.Nvram.Theorems.Window
import Webtermo.Execution.Mqtt.State
import Webtermo.Execution.Mqtt.Theorems
import Webtermo.Execution.Alarm.Theorems.Hysteresis
import Webtermo.Execution.Alarm.Crc
import Webtermo.Execution.Alarm.Theorems.Crc
import Webtermo.Execution.Alarm.Theorems.Errors
import Webtermo.Objects.Base64
import Webtermo.Objects.XmlParser
import Webtermo.Execution.Clock.State
import Webtermo.Execution.Clock.Theorems
import Webtermo.Execution.Wcl.Urlencode
import Webtermo.Execution.Wcl.Theorems.Urlencode
import Webtermo.Execution.Config.Address
import Webtermo.Execution.Config.Theorems.Address
import Webtermo.Execution.Config.Theorems.Posted
import Webtermo.Execution.Config.Theorems.Serial
import Webtermo.Execution.Config.Theorems.Number
import Webtermo.Objects.StringToFile
import Webtermo.Execution.Auth.Bounds
import Webtermo.Execution.Auth.Theorems.Bounds
import Webtermo.Execution.Timer.State
import Webtermo.Execution.Timer.Theorems
import Webtermo.Execution.Enc.Theorems.Unbanked
import Webtermo.Objects.Bufsearch
import Webtermo.Objects.Ftoa
import Webtermo.Objects.Temperature
import Webtermo.Execution.Logger.Lines
import Webtermo.Execution.Logger.Theorems.Lines
import Webtermo.Execution.Pages.Theorems.Remaining
import Webtermo.Execution.Messages.Fits
import Webtermo.Execution.Messages.Theorems
import Webtermo.Library.Find
import Webtermo.Objects.Pbuf
import Webtermo.Execution.Httpc.State
import Webtermo.Execution.Httpc.Theorems.Ledger
import Webtermo.Execution.Httpc.Theorems.Answer
import Webtermo.Execution.Bus.State
import Webtermo.Execution.Bus.Theorems
import Webtermo.Execution.Httpc.Theorems.Pool
import Webtermo.Execution.Ctz.State
import Webtermo.Execution.Ctz.Theorems
import Webtermo.Execution.Pages.Files
import Webtermo.Library.Binary
import Webtermo.Objects.Single
import Webtermo.Execution.Ctz.Theorems.Index
