import S3c2440.Theory.Runs
import S3c2440.Theory.Chain
import S3c2440.Theory.Tally
import S3c2440.Theory.Mutex
import S3c2440.Theory.Ring
import S3c2440.Mymsg.Log
import S3c2440.Mymsg.Read
import S3c2440.Theory.Window
import S3c2440.Mymsg.Cursor
import S3c2440.Mymsg.Destructive
import S3c2440.Theory.Loop
import S3c2440.Nand.Chip
import S3c2440.Nand.Read
import S3c2440.Nand.Marks
import S3c2440.Touch.Driver
import S3c2440.Touch.Sampling
import S3c2440.Touch.Release
import S3c2440.Touch.Timer
import S3c2440.Touch.Input
import S3c2440.Touch.Filter
import S3c2440.Touch.Mailbox
import S3c2440.Touch.Handler
import S3c2440.Touch.Calibrate
import S3c2440.Touch.PointData
import S3c2440.ThreadPool.List
import S3c2440.ThreadPool.Pool
import S3c2440.ThreadPool.Exclusion
import S3c2440.ThreadPool.Jobs
import S3c2440.ThreadPool.Wakeup
import S3c2440.ThreadPool.Teardown
import S3c2440.ThreadPool.Create
import S3c2440.Theory.Raster
import S3c2440.Lcd.Geometry
import S3c2440.Theory.Staircase
import S3c2440.Lcd.Circle
import S3c2440.Theory.Memory
import S3c2440.Lcd.Framebuffer
import S3c2440.Console.Printf
import S3c2440.Console.Format
import S3c2440.Console.StringUtils
import S3c2440.Console.Hex
import S3c2440.Lcd.Font
import S3c2440.Lcd.Palette
import S3c2440.I2c.Controller
import S3c2440.I2c.Master
import S3c2440.I2c.Message
import S3c2440.I2c.Transfer
import S3c2440.I2c.At24cxx
import S3c2440.I2c.Menu
import S3c2440.I2c.Arrays
import S3c2440.Nor.Chip
import S3c2440.Nor.Program
import S3c2440.Nor.Scan
import S3c2440.Oled.I2c
import S3c2440.Oled.Nand
import S3c2440.Startup.Bss
import S3c2440.Theory.Bits
import S3c2440.Leds.Driver
import S3c2440.Buttons.Irq
import S3c2440.Buttons.Sixth
import S3c2440.Buttons.Seventh
import S3c2440.Buttons.Event
import S3c2440.Buttons.Reads
import S3c2440.Buttons.Debounce
import S3c2440.Spi.Gpio
import S3c2440.Spi.Display
import S3c2440.Spi.Print
import S3c2440.Spi.Flash
import S3c2440.Leds.Shadow
import S3c2440.Usb.Mouse
import S3c2440.Rtc.M41t11
import S3c2440.Rtc.Refusal
import S3c2440.Interrupt.Keys
import S3c2440.Interrupt.Dispatch
import S3c2440.Theory.Cells
import S3c2440.RamBlock.Request
import S3c2440.Dma.Copy
import S3c2440.Mmu.PageTable
import S3c2440.Timer.Registry
import S3c2440.Theory.OnesComplement
import S3c2440.Net.Reply
import S3c2440.Theory.Arm
import S3c2440.Theory.LongDivision
import S3c2440.Arith.Lib1funcs
import S3c2440.Arith.DivBody
import S3c2440.Arith.ModBody
import S3c2440.Arith.Division
import S3c2440.Arith.Div64
import S3c2440.Stdio.Strtoul
import S3c2440.Stdio.Number
import S3c2440.Stdio.Vsnprintf
import S3c2440.Stdio.Vsscanf
import S3c2440.Stdio.RoundTrip
import S3c2440.Sound.Buffers
import S3c2440.Sound.Capture
import S3c2440.Sound.Codec
import S3c2440.Sound.Progress
